import Qtalk.Js.Methods
import Qtalk.Js.ValueFrames
import Qtalk.Lib.Program

/-!
# A call and its answer as programs

`caller.call` of `javascript/rpc/caller.ts` behind `session.open`, and `Respond` with `return` and
`hijack` of `javascript/rpc/responder.ts`, over what they await: a write on the channel, a value
from the `FrameCodec`, the end of `close`. Where the writes are taken and the values are those
expected, each of them is a straight line of these (`call_follows`, `Respond_follows`).
-/

namespace Qtalk.Js.Rpc
open Qtalk.Lib

/-- What the functions await. -/
inductive Await where
  /-- `channel.write(buffer)` -/
  | write (buffer : List UInt8)
  /-- `codec.decode()` -/
  | decode
  /-- `channel.close()` -/
  | close
  deriving DecidableEq, Repr

/-- What they go on with; a write may throw. -/
abbrev Await.Value (N : Type) : Await → Type
  | .write _ => Option String
  | .decode => Json N
  | .close => Unit

/-- An async function. -/
abbrev Async (N : Type) := Program Await (Await.Value N)

variable {N : Type}

namespace Async

def write (buffer : List UInt8) : ExceptT String (Async N) Unit :=
  ExceptT.mk (.op (.write buffer) fun thrown => .ret (thrown.elim (.ok ()) .error))

def decode : ExceptT String (Async N) (Json N) := ExceptT.mk (.op .decode fun v => .ret (.ok v))

def close : ExceptT String (Async N) Unit := ExceptT.mk (.op .close fun _ => .ret (.ok ()))

end Async

/-- A property of a decoded value; those of null throw. -/
def property (name : List UInt16) : Json N → Except String (Option (Json N))
  | .null => .error "TypeError"
  | .object members => .ok ((members.find? fun m => m.1 = name).map Prod.snd)
  | _ => .ok none

/-- `FrameCodec.encode`. -/
def FrameCodec.encode (eng : Engine N) (v : JsValue N) : ExceptT String (Async N) Unit := do
  let buf ← ofExcept (eng.encode v)
  Async.write (setUint32 (List.replicate 4 0) 0 buf.length)
  Async.write buf

/-- `Response`; the fields of the header are undefined where it lacks them. -/
structure Response (N : Type) where
  error : Option (Json N)
  hijacked : Option (Json N)
  reply : Json N

def isTrue : Option (Json N) → Bool
  | some (.bool b) => b
  | _ => false

/-- The `try` of `caller.call`, once the channel is open. -/
def caller.exchange (eng : Engine N) (path : List UInt16) (args : JsValue N) :
    ExceptT String (Async N) (Response N) := do
  let call ← ofExcept (CallFields.constructor path)
  FrameCodec.encode eng call.value
  FrameCodec.encode eng args
  let header ← Async.decode
  let error ← ofExcept (property (propName "Error") header)
  let hijacked ← ofExcept (property (propName "Hijacked") header)
  let reply ← Async.decode
  if isTrue hijacked then return { error, hijacked, reply }
  Async.close
  return { error, hijacked, reply }

/-- `caller.call`: whatever is thrown, it rejects with the same. -/
def caller.call (eng : Engine N) (path : List UInt16) (args : JsValue N) :
    Async N (Except String (Response N)) := do
  let outcome ← (caller.exchange eng path args).run
  return outcome.mapError fun _ => "call?"

/-- The header and the value that `return` and `hijack` write. -/
def Returned.header (hijacked : Bool) : Returned N → JsValue N
  | .error message => responseHeader (some message) hijacked
  | .value _ => responseHeader none hijacked

def Returned.reply : Returned N → JsValue N
  | .error _ => .null
  | .value v => v

/-- `responder.return`. -/
def responder.return (eng : Engine N) (v : Returned N) : ExceptT String (Async N) Unit := do
  FrameCodec.encode eng (v.header false)
  FrameCodec.encode eng v.reply
  Async.close

/-- `responder.hijack`, which leaves the channel to the handler. -/
def responder.hijack (eng : Engine N) (v : Returned N) : ExceptT String (Async N) Unit := do
  FrameCodec.encode eng (v.header true)
  FrameCodec.encode eng v.reply

abbrev Handler (N : Type) := CallFields UInt16 → ExceptT String (Async N) Unit

/-- `new Call(destination)`. -/
def newCall : Option (Json N) → Except String (CallFields UInt16)
  | some (.string destination) => CallFields.constructor destination
  | _ => .error "TypeError"

/-- The text of the error where no handler is found. -/
def missing (destination : List UInt16) : List UInt16 :=
  propName "handler does not exist for this destination: " ++ destination

/-- `Respond`; `handler` is `mux.handler`, which may throw. -/
def Respond (eng : Engine N) (handler : List UInt16 → Except String (Option (Handler N))) :
    ExceptT String (Async N) Unit := do
  let frame ← Async.decode
  let destination ← ofExcept (property (propName "Destination") frame)
  let call ← ofExcept (newCall destination)
  match ← ofExcept (handler call.Destination) with
  | none => responder.return eng (.error (missing call.Destination))
  | some respondRPC => respondRPC call

/-- What a handler does that decodes its arguments, and returns what `f` makes of them or hijacks
the channel with it. -/
def answering (eng : Engine N) (hijacks : Bool) (f : CallFields UInt16 → Json N → Returned N) :
    Handler N := fun call => do
  let args ← Async.decode
  if hijacks then responder.hijack eng (f call args) else responder.return eng (f call args)

/-! ## Straight lines -/

/-- A write, a value that comes, or the end of `close`. -/
inductive Line (N : Type) where
  | write (buffer : List UInt8)
  | decode (v : Json N)
  | close

/-- The program awaits these in a row and returns `r`. -/
inductive Follows {ρ : Type} (r : ρ) : List (Line N) → Async N ρ → Prop
  | ret : Follows r [] (.ret r)
  | write {buffer : List UInt8} {lines : List (Line N)} {k : Option String → Async N ρ}
      (h : Follows r lines (k none)) : Follows r (.write buffer :: lines) (.op (.write buffer) k)
  | decode {v : Json N} {lines : List (Line N)} {k : Json N → Async N ρ} (h : Follows r lines (k v)) :
      Follows r (.decode v :: lines) (.op .decode k)
  | close {lines : List (Line N)} {k : Unit → Async N ρ} (h : Follows r lines (k ())) :
      Follows r (.close :: lines) (.op .close k)

/-- The writes of a value's frame. -/
def writesOf (eng : Engine N) (j : Json N) : List (Line N) :=
  (eng.jsonCodec.writes j).map .write

section Rules

variable {eng : Engine N} {ρ : Type} {r : Except String ρ} {lines : List (Line N)}

theorem Follows.encode {v : JsValue N} {text : List Char} (hv : eng.stringify v = .ok (some text))
    {f : Unit → ExceptT String (Async N) ρ} (h : Follows r lines (f ()).run) :
    Follows r (writesOf eng (eng.json v) ++ lines) (FrameCodec.encode eng v >>= f).run := by
  rw [FrameCodec.encode, Transfer.stringify_encode hv]
  exact .write (.write h)

theorem Follows.encode_last {v : JsValue N} {text : List Char}
    (hv : eng.stringify v = .ok (some text)) :
    Follows (.ok ()) (writesOf eng (eng.json v)) (FrameCodec.encode eng v).run := by
  rw [FrameCodec.encode, Transfer.stringify_encode hv]
  exact .write (.write .ret)

theorem Follows.awaited {v : Json N} {f : Json N → ExceptT String (Async N) ρ}
    (h : Follows r lines (f v).run) : Follows r (.decode v :: lines) (Async.decode >>= f).run :=
  .decode h

/-- The rest of a program goes on from the value of its first part. -/
theorem Follows.bind {σ : Type} {a : σ} {more : List (Line N)} {p : Async N σ} (h : Follows a lines p)
    {f : σ → Async N ρ} {b : ρ} (hf : Follows b more (f a)) : Follows b (lines ++ more) (p >>= f) := by
  induction h with
  | ret => exact hf
  | write _ ih => exact .write ih
  | decode _ ih => exact .decode ih
  | close _ ih => exact .close ih

end Rules

/-! ## The values -/

/-- The message of an answer that is an `Error`. -/
def Returned.error? : Returned N → Option (List UInt16)
  | .error message => some message
  | .value _ => none

variable (eng : Engine N)

theorem json_call (call : CallFields UInt16) : eng.json call.value =
    .object [(propName "Destination", .string call.Destination),
      (propName "objectPath", .string call.objectPath), (propName "method", .string call.method)] := rfl

theorem json_header (v : Returned N) (hijacked : Bool) : eng.json (v.header hijacked) =
    .object ((v.error?.map fun message => (propName "Error", .string message)).toList ++
      [(propName "Hijacked", .bool hijacked)]) := by
  cases v <;> rfl

theorem destination_sent (call : CallFields UInt16) :
    property (propName "Destination") (eng.json call.value) = .ok (some (.string call.Destination)) := by
  rw [json_call]
  simp [property]

theorem error_sent (v : Returned N) (hijacked : Bool) :
    property (propName "Error") (eng.json (v.header hijacked)) = .ok (v.error?.map .string) := by
  have hname : propName "Hijacked" ≠ propName "Error" := by decide
  rw [json_header]
  cases v <;> simp [property, Returned.error?, hname]

theorem hijacked_sent (v : Returned N) (hijacked : Bool) :
    property (propName "Hijacked") (eng.json (v.header hijacked)) = .ok (some (.bool hijacked)) := by
  have hname : propName "Error" ≠ propName "Hijacked" := by decide
  rw [json_header]
  cases v <;> simp [property, Returned.error?, hname]

/-! ## The two programs -/

/-- The response in which a call returns an answer. -/
def responseOf (hijacked : Bool) (v : Returned N) : Response N where
  error := v.error?.map .string
  hijacked := some (.bool hijacked)
  reply := eng.json v.reply

/-- The end of a line that closes its channel. -/
def closing (hijacked : Bool) : List (Line N) := if hijacked then [] else [.close]

variable {eng}

/-- `caller.call` writes the call and its arguments, and awaits the header and the reply. -/
theorem call_follows {path : List UInt16} {call : CallFields UInt16} {args : JsValue N}
    (hpath : CallFields.constructor path = .ok call) (hcall : eng.Passable call.value)
    (hargs : eng.Passable args) (hijacked : Bool) (v : Returned N) :
    Follows (.ok (responseOf eng hijacked v))
      (writesOf eng (eng.json call.value) ++ (writesOf eng (eng.json args) ++
        (.decode (eng.json (v.header hijacked)) :: .decode (eng.json v.reply) :: closing hijacked)))
      (caller.call eng path args) := by
  obtain ⟨text, htext, -⟩ := hcall
  obtain ⟨text', htext', -⟩ := hargs
  have hrun : Follows (.ok (responseOf eng hijacked v))
      (writesOf eng (eng.json call.value) ++ (writesOf eng (eng.json args) ++
        (.decode (eng.json (v.header hijacked)) :: .decode (eng.json v.reply) :: closing hijacked)))
      (caller.exchange eng path args).run := by
    rw [caller.exchange, hpath]
    refine Follows.encode htext (Follows.encode htext' (Follows.awaited ?_))
    rw [error_sent, hijacked_sent]
    refine Follows.awaited ?_
    cases hijacked with
    | true => exact .ret
    | false => exact .close .ret
  have h := hrun.bind (f := fun outcome => .ret (outcome.mapError fun _ => "call?")) (.ret)
  rwa [List.append_nil] at h

/-- What comes of a call of a path that is bound to `f`. -/
theorem Respond_follows {handler : List UInt16 → Except String (Option (Handler N))}
    {call received : CallFields UInt16} (args : Json N) {hijacked : Bool}
    {f : CallFields UInt16 → Json N → Returned N}
    (hreceived : CallFields.constructor call.Destination = .ok received)
    (hhandler : handler received.Destination = .ok (some (answering eng hijacked f)))
    (hheader : eng.Passable ((f received args).header hijacked))
    (hreply : eng.Passable (f received args).reply) :
    Follows (.ok ())
      (.decode (eng.json call.value) :: .decode args ::
        (writesOf eng (eng.json ((f received args).header hijacked)) ++
          (writesOf eng (eng.json (f received args).reply) ++ closing hijacked)))
      (Respond eng handler).run := by
  obtain ⟨text, htext, -⟩ := hheader
  obtain ⟨text', htext', -⟩ := hreply
  refine Follows.awaited ?_
  rw [destination_sent]
  show Follows _ _ (ofExcept (newCall (some (.string call.Destination))) >>= _ :
    ExceptT String (Async N) Unit).run
  rw [newCall, hreceived]
  show Follows _ _ (ofExcept (handler received.Destination) >>= _ : ExceptT String (Async N) Unit).run
  rw [hhandler]
  refine Follows.awaited ?_
  cases hijacked with
  | true =>
    rw [closing, if_pos rfl, List.append_nil]
    exact Follows.encode htext (.encode_last htext')
  | false => exact Follows.encode htext (Follows.encode htext' (.close .ret))

end Qtalk.Js.Rpc
