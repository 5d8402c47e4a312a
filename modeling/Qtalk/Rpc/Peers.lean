import Qtalk.Rpc.Call
import Qtalk.System.Ending

/-!
# A caller and a server

Two connected sessions. On the left side goroutines make calls, on the right
`Server.Respond` starts a `Respond` for every channel it accepts, and handlers may make
calls of their own. An operation of a goroutine is done in the steps of its session, under
any schedule. Which of the calls in progress on a channel is whose is not kept: where
several goroutines are inside `Write` on one channel, the one that goes on may go on with
any of them. A channel that an application has been given, with a response or by
`Hijack`, may be used by any other goroutine of it, also while its `Respond` goes on.
-/

namespace Qtalk.Rpc.Peer
open Qtalk.Codec Qtalk.Lib Qtalk.Mux

/-- Where a goroutine stands in the operation at hand. -/
inductive Place where
  | idle
  /-- inside `Open`, with the channel it has registered -/
  | opening (c : Nat)
  | writing
  /-- inside `Read`, with the bytes taken from the buffer -/
  | reading (bs : List UInt8)
  deriving DecidableEq, Repr

structure Goroutine (ρ : Type) where
  /-- the channel objects it has registered or was started with -/
  own : List Nat := []
  prog : Go ρ
  place : Place := .idle

/-- Whether a step of the session is a step of the operation. -/
def Op.does (own : List Nat) (place : Place) (b : Session.Act) : Op → Bool
  | .Open =>
    match place, b with
    | .idle, .register => true
    | .opening c, .call c' (.sendOpen _) => c' = c
    | .opening c, .call c' .opened => c' = c
    | _, _ => false
  | .Write ch data =>
    match place, b with
    | .idle, .call c (.write data') => ch ∈ own ∧ c = ch ∧ data' = data
    | .writing, .call c (.reserve _) => c = ch
    | .writing, .call c (.sendData _ _) => c = ch
    | _, _ => false
  | .Read ch n =>
    match place, b with
    | .idle, .call c (.read n') => ch ∈ own ∧ c = ch ∧ n' = n
    | .reading _, .call c (.credit _) => c = ch
    | .reading _, .call c (.sendAdjust _) => c = ch
    | _, _ => false
  | .Close ch =>
    match place, b with
    | .idle, .call c .close => ch ∈ own ∧ c = ch
    | _, _ => false
  | .handOut _ => false

/-- `Open`: the switch over what it takes from `msg`. -/
def opened (c : Nat) (ch : Channel) : Except SessionError Nat :=
  match ch.msg with
  | .openConfirm _ :: _ => .ok c
  | .openFailure _ :: _ => .error .openFailed
  | _ :: _ => .error .unexpected
  | [] => .error .closedEarly

/-- What a step that is one of the operation's, taken in state `y`, leaves: the operation
goes on, or has its answer. -/
def Op.after (x : Side) (y : System) (place : Place) (b : Session.Act) :
    (o : Op) → Place ⊕ o.Answer
  | .Open =>
    match place, b with
    | .opening c, .call _ (.sendOpen ok) => if ok then .inl (.opening c) else .inr (.error .conn)
    | .opening c, _ => .inr (opened c (y.chan x c))
    | _, _ => .inl (.opening (y.sess x).fresh)
  | .Write ch _ =>
    match place, b with
    | .writing, .call _ (.reserve k) =>
      match (y.chan x ch).writes[k]? with
      | some w =>
        if w.data = [] then .inr none
        else if (y.chan x ch).remoteWin.closed then .inr (some .eof)
        else .inl .writing
      | none => .inl .writing
    | .writing, .call _ (.sendData _ ok) => if ok then .inl .writing else .inr (some .conn)
    | _, _ => if (y.chan x ch).sentEOF then .inr (some .eof) else .inl .writing
  | .Read ch n =>
    match place, b with
    | .reading bs, .call _ (.credit _) => .inl (.reading bs)
    | .reading bs, _ =>
      -- `io.EOF` from `adjustWindow` is dropped
      .inr (if (y.chan x ch).sentClose = false ∧ (y.sess x).connClosed = true then .error .conn
        else .ok bs)
    | _, _ =>
      match (y.chan x ch).pending.Read n with
      | .bytes [] _ => .inr (.ok [])
      | .bytes bs _ => .inl (.reading bs)
      | _ => .inr (.error .eof)
  | .Close ch =>
    .inr (if (y.chan x ch).sentClose then some .eof
      else if (y.sess x).connClosed then some .conn
      else none)
  | .handOut _ => .inr ()

/-- The channel object a step creates. -/
def registered (s : Session) : Session.Act → List Nat
  | .register => [s.fresh]
  | _ => []

variable {ρ : Type}

/-- A goroutine of side `x` takes a step of its session. -/
def Goroutine.next (g : Goroutine ρ) (x : Side) (y : System) (b : Session.Act) :
    Option (Goroutine ρ × System) :=
  match g.prog with
  | .ret _ => none
  | .op o k =>
    if o.does g.own g.place b then
      match y.next (.app x b) with
      | none => none
      | some y' =>
        let own := g.own ++ registered (y.sess x) b
        match o.after x y g.place b with
        | .inl place => some ({ own, prog := .op o k, place }, y')
        | .inr r => some ({ own, prog := k r }, y')
    else none

/-- The goroutine has returned. -/
def Goroutine.Returned (g : Goroutine ρ) : Prop := g.prog.result.isSome = true

instance (g : Goroutine ρ) : Decidable g.Returned := by unfold Goroutine.Returned; infer_instance

/-- What `Call` returns. -/
abbrev Reply (α V E : Type) := Option (Response α V) × Option (CallError α E)

/-- A goroutine inside `Respond`, and the channel it was started for. -/
structure Responding where
  chan : Nat
  go : Goroutine Unit

structure World (α V E : Type) where
  sys : System
  /-- the goroutines of the left side inside `Call` -/
  calls : List (Goroutine (Reply α V E))
  /-- those of the right side inside `Respond` -/
  responds : List Responding
  /-- `Server.Respond` has not returned -/
  serving : Bool
  /-- the channels that handlers have hijacked -/
  hijacked : List Nat

variable {α V E : Type}

/-- The channel a finished call has returned with its response. -/
def Goroutine.channel (g : Goroutine (Reply α V E)) : Option Nat := do
  let reply ← g.prog.result
  let resp ← reply.1
  return resp.Channel

namespace World

def start : World α V E := ⟨System.start, [], [], true, []⟩

inductive Act (α V E : Type) where
  /-- a goroutine of the left side enters `Call` -/
  | call (c : Codecs α V E) (path : List α) (args : Option V) (reply : Bool)
  /-- a call goes on -/
  | caller (i : Nat) (b : Session.Act)
  /-- `Server.Respond` accepts a channel and starts `Respond` for it -/
  | accept (c : Codecs α V E) (order : List (List α × Handler α))
  /-- `Server.Respond` gets `io.EOF` and returns -/
  | acceptEOF
  /-- a `Respond` goes on -/
  | responder (i : Nat) (b : Session.Act)
  /-- `Hijack` returns the channel to the handler -/
  | handOut (i : Nat)
  /-- another goroutine of the application uses a channel that was handed out -/
  | use (x : Side) (c : Nat) (b : Channel.Step)
  /-- the loop of a session goes on -/
  | loop (x : Side) (ok : Bool)
  /-- the oldest packet on its way to side `x` is decoded there -/
  | deliver (x : Side)

/-- Whether the application of a side has been given the channel. -/
def given (w : World α V E) (c : Nat) : Side → Bool
  | .left => w.calls.any fun g => g.channel = some c
  | .right => w.hijacked.contains c

variable [DecidableEq α] [Text α]

def next (w : World α V E) : Act α V E → Option (World α V E)
  | .call c path args reply =>
    some { w with calls := w.calls ++ [{ prog := caller.Call c path args reply }] }
  | .caller i b =>
    match w.calls[i]? with
    | none => none
    | some g =>
      match g.next .left w.sys b with
      | none => none
      | some (g, sys) => some { w with sys, calls := w.calls.set i g }
  | .accept c order =>
    match (w.sys.sess .right).incoming, w.sys.next (.app .right .accept) with
    | ch :: _, some sys =>
      if w.serving then
        some { w with sys, responds := w.responds ++ [⟨ch, { own := [ch], prog := Respond c order ch }⟩] }
      else none
    | _, _ => none
  | .acceptEOF =>
    match w.sys.next (.app .right .acceptEOF) with
    | none => none
    | some sys => if w.serving then some { w with sys, serving := false } else none
  | .responder i b =>
    match w.responds[i]? with
    | none => none
    | some r =>
      match r.go.next .right w.sys b with
      | none => none
      | some (go, sys) => some { w with sys, responds := w.responds.set i { r with go } }
  | .handOut i =>
    match w.responds[i]? with
    | none => none
    | some r =>
      match r.go.prog with
      | .op (.handOut ch) k =>
        if ch ∈ r.go.own then
          some { w with
            responds := w.responds.set i { r with go := { own := r.go.own, prog := k () } }
            hijacked := w.hijacked ++ [ch] }
        else none
      | _ => none
  | .use x c b =>
    if w.given c x then
      match w.sys.next (.app x (.call c b)) with
      | none => none
      | some sys => some { w with sys }
    else none
  | .loop x ok =>
    match w.sys.next (.app x (.loop ok)) with
    | none => none
    | some sys => some { w with sys }
  | .deliver x =>
    match w.sys.next (.deliver x) with
    | none => none
    | some sys => some { w with sys }

/-- A step, by what it does to the sessions and the goroutines. -/
inductive Moves (w : World α V E) : Act α V E → World α V E → Prop where
  | call (c : Codecs α V E) (path : List α) (args : Option V) (reply : Bool) :
      Moves w (.call c path args reply)
        { w with calls := w.calls ++ [{ prog := caller.Call c path args reply }] }
  | caller {i : Nat} {b : Session.Act} {g g' : Goroutine (Reply α V E)} {sys : System}
      (hg : w.calls[i]? = some g) (hs : g.next .left w.sys b = some (g', sys)) :
      Moves w (.caller i b) { w with sys, calls := w.calls.set i g' }
  | accept (c : Codecs α V E) (order : List (List α × Handler α)) {ch : Nat} {rest : List Nat}
      {sys : System} (hin : (w.sys.sess .right).incoming = ch :: rest)
      (hn : w.sys.next (.app .right .accept) = some sys) (hs : w.serving = true) :
      Moves w (.accept c order)
        { w with sys, responds := w.responds ++ [⟨ch, { own := [ch], prog := Respond c order ch }⟩] }
  | acceptEOF {sys : System} (hn : w.sys.next (.app .right .acceptEOF) = some sys)
      (hs : w.serving = true) : Moves w .acceptEOF { w with sys, serving := false }
  | responder {i : Nat} {b : Session.Act} {r : Responding} {go : Goroutine Unit} {sys : System}
      (hr : w.responds[i]? = some r) (hs : r.go.next .right w.sys b = some (go, sys)) :
      Moves w (.responder i b) { w with sys, responds := w.responds.set i { r with go } }
  | handOut {i ch : Nat} {r : Responding} {k : Unit → Go Unit} (hr : w.responds[i]? = some r)
      (hp : r.go.prog = .op (.handOut ch) k) (hown : ch ∈ r.go.own) :
      Moves w (.handOut i)
        { w with
          responds := w.responds.set i { r with go := { own := r.go.own, prog := k () } }
          hijacked := w.hijacked ++ [ch] }
  | use {x : Side} {c : Nat} {b : Channel.Step} {sys : System} (hg : w.given c x = true)
      (hn : w.sys.next (.app x (.call c b)) = some sys) : Moves w (.use x c b) { w with sys }
  | loop {x : Side} {ok : Bool} {sys : System} (hn : w.sys.next (.app x (.loop ok)) = some sys) :
      Moves w (.loop x ok) { w with sys }
  | deliver {x : Side} {sys : System} (hn : w.sys.next (.deliver x) = some sys) :
      Moves w (.deliver x) { w with sys }

theorem Moves.of_next {w w' : World α V E} {a : Act α V E} (h : w.next a = some w') : w.Moves a w' := by
  cases a with
  | call c path args reply =>
    cases h
    exact .call c path args reply
  | caller i b =>
    simp only [next] at h
    split at h
    · cases h
    · next g hg =>
      split at h
      · cases h
      · next g' sys hs =>
        cases h
        exact .caller hg hs
  | accept c order =>
    simp only [next] at h
    split at h
    · next ch rest sys hin hn =>
      split at h
      · next hs =>
        cases h
        exact .accept c order hin hn hs
      · cases h
    · cases h
  | acceptEOF =>
    simp only [next] at h
    split at h
    · cases h
    · next sys hn =>
      split at h
      · next hs =>
        cases h
        exact .acceptEOF hn hs
      · cases h
  | responder i b =>
    simp only [next] at h
    split at h
    · cases h
    · next r hr =>
      split at h
      · cases h
      · next go sys hs =>
        cases h
        exact .responder hr hs
  | handOut i =>
    simp only [next] at h
    split at h
    · cases h
    · next r hr =>
      split at h
      · next ch k hp =>
        split at h
        · next hown =>
          cases h
          exact .handOut hr hp hown
        · cases h
      · cases h
  | use x c b =>
    simp only [next] at h
    split at h
    · next hg =>
      split at h
      · cases h
      · next sys hn =>
        cases h
        exact .use hg hn
    · cases h
  | loop x ok =>
    simp only [next] at h
    split at h
    · cases h
    · next sys hn =>
      cases h
      exact .loop hn
  | deliver x =>
    simp only [next] at h
    split at h
    · cases h
    · next sys hn =>
      cases h
      exact .deliver hn

end World

end Qtalk.Rpc.Peer
