import Qtalk.Js.Bytes
import Qtalk.Lib.Runs

/-!
# The legacy responder

`responder.return` and `FrameCodec.encode` of `javascript/legacy/qrpc/src/qrpc.ts`. A return is an
async function that nobody awaits: it runs up to its first write, and from there on it goes on by
itself, a write at a time, beside the returns started after it. Nothing but the returns writes to
the channel.
-/

namespace Qtalk.Legacy
open Qtalk.Lib

/-- `typeof`. -/
inductive TypeOf where
  | undefined
  | boolean
  | number
  | bigint
  | string
  | symbol
  | function
  | object
  deriving DecidableEq, Repr

/-- A value, by what the code does with it. A number is given by its text. Of an object there is
whether it is a function, `v instanceof Error`, `v.message`, `"" + v` and its text; nothing where
that throws. -/
inductive Value where
  | undefined
  | null
  | boolean (b : Bool)
  | number (text : String)
  | bigint (n : Int)
  | string (s : String)
  | symbol
  | object (callable : Bool) (isError : Option Bool) (message : Option Value) (text str : Option String)

namespace Value

def typeOf : Value → TypeOf
  | .undefined => .undefined
  | .null => .object
  | .boolean _ => .boolean
  | .number _ => .number
  | .bigint _ => .bigint
  | .string _ => .string
  | .symbol => .symbol
  | .object callable _ _ _ _ => if callable then .function else .object

/-- `v instanceof Error`. -/
def isError? : Value → Option Bool
  | .object _ isError _ _ _ => isError
  | _ => some false

/-- `v.message`: undefined and null have no fields. -/
def message? : Value → Option Value
  | .undefined | .null => none
  | .object _ _ message _ _ => message
  | _ => some .undefined

/-- The text that `new Error` makes of its argument; of a symbol there is none. -/
def string? : Value → Option String
  | .undefined => some "undefined"
  | .null => some "null"
  | .boolean b => some (toString b)
  | .number text => some text
  | .bigint n => some (toString n)
  | .string s => some s
  | .symbol => none
  | .object _ _ _ _ str => str

/-- What `+` puts behind a text. -/
def text? : Value → Option String
  | .object _ _ _ text _ => text
  | v => v.string?

/-- `v || null`. -/
def orNull : Value → Value
  | .undefined | .boolean false | .string "" | .number "0" | .number "NaN" | .bigint 0 => .null
  | v => v

/-- An `Error` with the message. -/
def error (message : String) : Value :=
  let text := if message = "" then "Error" else "Error: " ++ message
  .object false (some true) (some (.string message)) (some text) (some text)

/-- `new Error(message)`. -/
def newError : Value → Option Value
  | .undefined => some (error "")
  | message => message.string?.map error

end Value

/-- The codec, of which the code relies on this: a header is encoded whose `Error` is a text or not
there, and so is null. -/
structure Codec where
  /-- of a `ResponseHeader`, by its `Error` -/
  header : Value → Option (List UInt8)
  value : Value → Option (List UInt8)
  header_undefined : (header .undefined).isSome
  header_string : ∀ s, (header (.string s)).isSome
  value_null : (value .null).isSome

/-- `msgpack` on headers with a text, on texts and on null; for texts of 32 bytes and more it has
shorter forms too. -/
def msgpack : Codec :=
  let text (s : String) : List UInt8 :=
    let bytes := s.toList.flatMap String.utf8EncodeChar
    if bytes.length < 32 then (0xa0 + UInt8.ofNat bytes.length) :: bytes
    else 0xdb :: (beBytes (UInt32.ofNat bytes.length) ++ bytes)
  { header := fun error =>
      match error with
      | .undefined => some [0x80]
      | .string s => some (0x81 :: (text "Error" ++ text s))
      | _ => none
    value := fun v =>
      match v with
      | .undefined | .null => some [0xc0]
      | .string s => some (text s)
      | _ => none
    header_undefined := rfl
    header_string := fun _ => rfl
    value_null := rfl }

/-- The write a return awaits, and what it is about to write then; or how it came to an end. -/
inductive Phase where
  /-- the length of the header -/
  | headerLength (buf : List UInt8)
  | header
  /-- the length of the reply -/
  | replyLength (buf : List UInt8)
  | reply
  /-- `this.ch.close()` was called -/
  | returned
  | threw
  deriving DecidableEq, Repr

/-- A call of `return`, with what `v` is by then. -/
structure Return where
  v : Value
  phase : Phase

/-- A responder and the calls of its `return`; `error` is `this.header.Error`, `writes` the writes
on the channel. -/
structure Responder where
  error : Value := .undefined
  returns : List Return := []
  writes : List (List UInt8) := []
  closed : Bool := false

/-- The `Uint32` of `encode`. -/
def lengthOf (buf : List UInt8) : List UInt8 := Js.setUint32 (List.replicate 4 0) 0 buf.length

namespace Responder

/-- `channel.write`, and the phase the return is in then; a closed channel throws. -/
def write (r : Responder) (bytes : List UInt8) (phase : Phase) : Responder × Phase :=
  if r.closed then (r, .threw) else ({ r with writes := r.writes ++ [bytes] }, phase)

/-- `this.codec.encode(this.header)`, up to the first await. -/
def encodeHeader (codec : Codec) (r : Responder) : Responder × Phase :=
  match codec.header r.error with
  | none => (r, .threw)
  | some buf => r.write (lengthOf buf) (.headerLength buf)

/-- A call of `return`, up to the first await. -/
def startReturn (codec : Codec) (r : Responder) (v : Value) : Responder :=
  match v.isError? with
  | none => { r with returns := r.returns ++ [⟨v, .threw⟩] }
  | some false =>
    let (r, phase) := r.encodeHeader codec
    { r with returns := r.returns ++ [⟨v, phase⟩] }
  | some true =>
    match v.message? with
    | none => { r with returns := r.returns ++ [⟨v, .threw⟩] }
    | some message =>
      let (r, phase) := { r with error := message }.encodeHeader codec
      { r with returns := r.returns ++ [⟨.null, phase⟩] }

/-- Return `k` in another phase. -/
def setPhase (r : Responder) (k : Nat) (v : Value) (phase : Phase) : Responder :=
  { r with returns := r.returns.set k ⟨v, phase⟩ }

/-- Return `k` goes on to its next await. -/
def resume (codec : Codec) (r : Responder) (k : Nat) : Option Responder :=
  match r.returns[k]? with
  | some ⟨v, .headerLength buf⟩ =>
    let (r, phase) := r.write buf .header
    some (r.setPhase k v phase)
  | some ⟨v, .header⟩ =>
    match codec.value v with
    | none => some (r.setPhase k v .threw)
    | some buf =>
      let (r, phase) := r.write (lengthOf buf) (.replyLength buf)
      some (r.setPhase k v phase)
  | some ⟨v, .replyLength buf⟩ =>
    let (r, phase) := r.write buf .reply
    some (r.setPhase k v phase)
  | some ⟨v, .reply⟩ => some ({ r with closed := true }.setPhase k v .returned)
  | _ => none

/-- A responder whose `return` is called with each of the values, one call right behind the other. -/
def respond (codec : Codec) (vs : List Value) : Responder := vs.foldl (startReturn codec) {}

/-- No return goes on. -/
def Ended (codec : Codec) (r : Responder) : Prop := ∀ k, r.resume codec k = none

/-- One return is started, every run comes to an end, and what is written by then is one frame with
a header and one with a reply. -/
structure AnsweredOnce (codec : Codec) (vs : List Value) : Prop where
  started : vs.length = 1
  ends : ∀ r, Run (resume codec) anyStep (respond codec vs) r →
    ∃ r', Run (resume codec) anyStep r r' ∧ r'.Ended codec
  frames : ∀ r, Run (resume codec) anyStep (respond codec vs) r → r.Ended codec →
    ∃ error reply header body, codec.header error = some header ∧ codec.value reply = some body ∧
      r.writes = [lengthOf header, header, lengthOf body, body]

end Responder

/-- What `return(v)` encodes, under a header whose `Error` was `old`: the `Error` by then, and the
reply. -/
def Value.answer (v old : Value) : Option (Value × Value) :=
  match v.isError? with
  | none => none
  | some false => some (old, v)
  | some true => v.message?.map fun message => (message, .null)

/-- `v` can be looked at, and the codec encodes what is to be written for it. -/
def Value.Sendable (codec : Codec) (v : Value) : Prop :=
  ∃ error reply, v.answer .undefined = some (error, reply) ∧ (codec.header error).isSome ∧
    (codec.value reply).isSome

/-! ## One return -/

namespace Responder

section
variable {codec : Codec} {v error reply : Value} {header body : List UInt8}

/-- The states of a responder whose one return gets to its end. -/
def stage (error reply : Value) (header body : List UInt8) : Nat → Responder
  | 0 => { error, returns := [⟨reply, .headerLength header⟩], writes := [lengthOf header] }
  | 1 => { error, returns := [⟨reply, .header⟩], writes := [lengthOf header, header] }
  | 2 =>
    { error, returns := [⟨reply, .replyLength body⟩]
      writes := [lengthOf header, header, lengthOf body] }
  | 3 =>
    { error, returns := [⟨reply, .reply⟩], writes := [lengthOf header, header, lengthOf body, body] }
  | _ =>
    { error, returns := [⟨reply, .returned⟩]
      writes := [lengthOf header, header, lengthOf body, body], closed := true }

/-- There is one return to resume. -/
theorem resume_none {r : Responder} {q : Return} (h : r.returns = [q]) {k : Nat} (hk : k ≠ 0) :
    r.resume codec k = none := by
  have hget : r.returns[k]? = none := by
    rw [h]
    exact List.getElem?_eq_none (by rw [List.length_singleton]; omega)
  rw [resume, hget]

theorem resume_stage (hbody : codec.value reply = some body) (n k : Nat) :
    (stage error reply header body n).resume codec k =
      if k = 0 ∧ n < 4 then some (stage error reply header body (n + 1)) else none := by
  by_cases hk : k = 0
  · subst hk
    match n with
    | 0 => rfl
    | 1 => simp [stage, resume, hbody, write, setPhase]
    | 2 => rfl
    | 3 => rfl
    | n + 4 => simp [stage, resume]
  · rw [if_neg fun h => hk h.1]
    match n with
    | 0 | 1 | 2 | 3 | n + 4 => exact resume_none rfl hk

/-- A value that cannot be looked at is not answered. -/
theorem startReturn_none {r : Responder} (hv : v.answer r.error = none) :
    r.startReturn codec v = { r with returns := r.returns ++ [⟨v, .threw⟩] } := by
  rw [Value.answer] at hv
  rw [startReturn]
  cases herr : v.isError? with
  | none => rfl
  | some isError =>
    rw [herr] at hv
    cases isError with
    | false => cases hv
    | true => rw [Option.map_eq_none_iff.mp hv]

theorem startReturn_some {r : Responder} (hv : v.answer r.error = some (error, reply)) :
    r.startReturn codec v =
      let (r, phase) := { r with error }.encodeHeader codec
      { r with returns := r.returns ++ [⟨reply, phase⟩] } := by
  rw [Value.answer] at hv
  rw [startReturn]
  cases herr : v.isError? with
  | none =>
    rw [herr] at hv
    cases hv
  | some isError =>
    rw [herr] at hv
    cases isError with
    | false =>
      cases hv
      rfl
    | true =>
      obtain ⟨message, hmessage, heq⟩ := Option.map_eq_some_iff.mp hv
      cases heq
      rw [hmessage]

/-- The first state of a return that can write its header. -/
theorem respond_eq (body : List UInt8) (hv : v.answer .undefined = some (error, reply))
    (hheader : codec.header error = some header) :
    respond codec [v] = stage error reply header body 0 := by
  rw [respond, List.foldl_cons, List.foldl_nil, startReturn_some hv, encodeHeader, hheader]
  rfl

/-- A run of the one return goes through the stages. -/
theorem run_stage (hbody : codec.value reply = some body) {r : Responder}
    (run : Run (resume codec) anyStep (stage error reply header body 0) r) :
    ∃ n ≤ 4, r = stage error reply header body n := by
  refine Run.invariant (I := fun r => ∃ n ≤ 4, r = stage error reply header body n)
    ⟨0, by omega, rfl⟩ ?_ run
  rintro s k s' - ⟨n, -, rfl⟩ - hs
  rw [resume_stage hbody] at hs
  split at hs
  · next h =>
    cases hs
    exact ⟨n + 1, h.2, rfl⟩
  · cases hs

theorem ended_stage (hbody : codec.value reply = some body) {n : Nat} :
    (stage error reply header body n).Ended codec ↔ 4 ≤ n := by
  constructor
  · intro h
    have h0 := h 0
    rw [resume_stage hbody] at h0
    by_contra hlt
    rw [if_pos ⟨rfl, by omega⟩] at h0
    cases h0
  · intro h k
    rw [resume_stage hbody, if_neg fun hc => by omega]

/-- From a stage it takes as many steps as are left. -/
theorem run_to_end (hbody : codec.value reply = some body) {n d : Nat} (h : n + d = 4) :
    Run (resume codec) anyStep (stage error reply header body n) (stage error reply header body 4) := by
  induction d generalizing n with
  | zero =>
    cases h
    exact .start
  | succ d ih =>
    refine Run.trans (.step 0 .start trivial ?_) (ih (n := n + 1) (by omega))
    rw [resume_stage hbody, if_pos ⟨rfl, by omega⟩]

/-- A return that threw is not resumed. -/
theorem ended_of_threw {r : Responder} (h : r.returns = [⟨v, .threw⟩]) : r.Ended codec := by
  intro k
  by_cases hk : k = 0
  · rw [resume, h, hk]
    rfl
  · exact resume_none h hk

/-- Where the codec does not encode the reply, the header is all that is written. -/
theorem run_unencoded (error : Value) (header body : List UInt8) (hbody : codec.value reply = none) :
    Run (resume codec) anyStep (stage error reply header body 0)
      { error, returns := [⟨reply, .threw⟩], writes := [lengthOf header, header] } := by
  have hthrew : (stage error reply header body 1).resume codec 0 =
      some { error, returns := [⟨reply, .threw⟩], writes := [lengthOf header, header] } := by
    simp [stage, resume, hbody, setPhase]
  exact .step 0 (.step 0 .start trivial rfl) trivial hthrew

end

/-- One return is started, of a value that can be sent. -/
theorem answeredOnce_iff (codec : Codec) (vs : List Value) :
    AnsweredOnce codec vs ↔ ∃ v, vs = [v] ∧ v.Sendable codec := by
  constructor
  · rintro ⟨hstarted, -, hframes⟩
    obtain ⟨v, rfl⟩ := List.length_eq_one_iff.mp hstarted
    refine ⟨v, rfl, ?_⟩
    -- a state in which less than two frames are written is not the end
    have hshort : ∀ r, Run (resume codec) anyStep (respond codec [v]) r → r.Ended codec →
        r.writes.length < 4 → False := by
      intro r run hend hlt
      obtain ⟨_, _, _, _, -, -, hw⟩ := hframes r run hend
      rw [hw] at hlt
      exact absurd hlt (Nat.lt_irrefl 4)
    cases hv : v.answer .undefined with
    | none =>
      have hr : respond codec [v] = { returns := [⟨v, .threw⟩] } := startReturn_none hv
      rw [hr] at hshort
      exact (hshort _ .start (ended_of_threw rfl) (Nat.succ_pos 3)).elim
    | some parts =>
      obtain ⟨error, reply⟩ := parts
      refine ⟨error, reply, hv, ?_⟩
      cases hheader : codec.header error with
      | none =>
        have hr : respond codec [v] = { error, returns := [⟨reply, .threw⟩] } := by
          rw [respond, List.foldl_cons, List.foldl_nil, startReturn_some hv, encodeHeader, hheader]
          rfl
        rw [hr] at hshort
        exact (hshort _ .start (ended_of_threw rfl) (Nat.succ_pos 3)).elim
      | some header =>
        cases hbody : codec.value reply with
        | none =>
          have hrun := run_unencoded error header [] hbody
          rw [← respond_eq [] hv hheader] at hrun
          exact (hshort _ hrun (ended_of_threw rfl) (Nat.lt_add_of_pos_right (Nat.succ_pos 1))).elim
        | some body => exact ⟨rfl, rfl⟩
  · rintro ⟨v, rfl, error, reply, hv, hheader, hbody⟩
    obtain ⟨header, hheader⟩ := Option.isSome_iff_exists.mp hheader
    obtain ⟨body, hbody⟩ := Option.isSome_iff_exists.mp hbody
    refine ⟨rfl, fun r run => ?_, fun r run hend => ?_⟩
    · rw [respond_eq body hv hheader] at run
      obtain ⟨n, hn, rfl⟩ := run_stage hbody run
      exact ⟨_, run_to_end hbody (d := 4 - n) (by omega), (ended_stage hbody).mpr (Nat.le_refl 4)⟩
    · rw [respond_eq body hv hheader] at run
      obtain ⟨n, hn, rfl⟩ := run_stage hbody run
      have hfour : n = 4 := Nat.le_antisymm hn ((ended_stage hbody).mp hend)
      subst hfour
      exact ⟨error, reply, header, body, hheader, hbody, rfl⟩

/-- Each return writes as soon as it is started, so the lengths of all headers stand in front of
the first header. -/
theorem respond_errors (codec : Codec) (messages : List String) :
    (respond codec (messages.map Value.error)).writes.length = messages.length := by
  have key : ∀ (messages : List String) (r : Responder), r.closed = false →
      ((messages.map Value.error).foldl (startReturn codec) r).writes.length =
        r.writes.length + messages.length := by
    intro messages
    induction messages with
    | nil => exact fun r _ => rfl
    | cons message messages ih =>
      intro r hr
      obtain ⟨header, hheader⟩ := Option.isSome_iff_exists.mp (codec.header_string message)
      have hstart : r.startReturn codec (.error message) = { r with
          error := .string message
          returns := r.returns ++ [⟨.null, .headerLength header⟩]
          writes := r.writes ++ [lengthOf header] } := by
        have hanswer : (Value.error message).answer r.error = some (.string message, .null) := rfl
        rw [startReturn_some hanswer, encodeHeader, hheader]
        dsimp only
        rw [write, hr]
        rfl
      rw [List.map_cons, List.foldl_cons, hstart]
      refine (ih _ ?_).trans ?_
      · exact hr
      · simp only [List.length_append, List.length_cons, List.length_nil]
        omega
  rw [respond, key messages {} rfl]
  exact Nat.zero_add _

end Responder

end Qtalk.Legacy
