import Qtalk.Legacy.Responder

/-!
# The legacy export

`exportFunc` and `Export` of `javascript/legacy/qrpc/src/qrpc.ts`: which values the handler of an
exported function calls `r.return` with. The cases of the `switch` over the thrown value have no
`break`, so a case that matches runs the ones behind it as well, up to one that throws itself.
-/

namespace Qtalk.Legacy

/-- What a call of an exported function comes to, behind the `await`. -/
inductive Outcome where
  | returned (v : Value)
  | threw (e : Value)

abbrev Fn := Value → Outcome

/-- What a handler has done when it is through: the values of its calls of `r.return`, and whether
it has thrown. -/
structure Handled where
  returns : List Value
  threw : Bool

/-- A call, with what `decode` resolves to. -/
structure Call where
  method : String
  args : Value

abbrev Handler := Call → Handled

/-- The cases of the `switch`. -/
inductive Case where
  | string
  | undefined
  | object
  | default
  deriving DecidableEq, Repr

/-- They stand in this order. -/
def Case.all : List Case := [.string, .undefined, .object, .default]

def Case.of : TypeOf → Case
  | .string => .string
  | .undefined => .undefined
  | .object => .object
  | _ => .default

/-- The argument of the `r.return` in a case; nothing where it throws before. -/
def Case.reply? (e : Value) : Case → Option Value
  | .string => Value.newError e
  | .undefined => some (.error "unknown error")
  | .object => e.message?.bind Value.newError
  | .default => e.text?.map fun text => .error ("unknown error: " ++ text)

def runCases (e : Value) : List Case → Handled
  | [] => ⟨[], false⟩
  | c :: cs =>
    match c.reply? e with
    | none => ⟨[], true⟩
    | some v => ⟨v :: (runCases e cs).returns, (runCases e cs).threw⟩

/-- The `switch`: it goes to the case that matches, and on from there. -/
def catchError (e : Value) : Handled := runCases e (Case.all.dropWhile (· ≠ .of e.typeOf))

/-- `exportFunc`. -/
def exportFunc (fn : Fn) : Handler := fun c =>
  match fn c.args with
  | .returned v => ⟨[v.orNull], false⟩
  | .threw e => catchError e

/-- An object to export: the name of its constructor, the keys of a `for` over it, what its
`hasOwnProperty` says, the names its prototype has, and the fields that are functions. -/
structure Methods where
  constructorName : String
  keys : List String
  hasOwnProperty : String → Bool
  prototypeNames : List String
  method : String → Option Fn

/-- What `Export` is called with. -/
inductive Exportable where
  | function (fn : Fn)
  | object (v : Methods)
  | other

/-- The names under which `Export` puts a function into `handlers`. -/
def Methods.names (v : Methods) : List String :=
  if v.constructorName = "Object" then
    v.keys.filter fun key => v.hasOwnProperty key && (v.method key).isSome
  else v.prototypeNames.filter fun name => name ≠ "constructor" && (v.method name).isSome

/-- The handler of a method, where `handlers` has it as a field of its own: a method of the name
`__proto__` is not put into a field. -/
def Methods.handler? (v : Methods) (method : String) : Option Handler :=
  if method ∈ v.names ∧ method ≠ "__proto__" then (v.method method).map exportFunc else none

/-- `Export` of an object. A method of the name `hasOwnProperty` is not to be called, as it has become
a handler. -/
def Methods.serveRPC (v : Methods) : Handler := fun c =>
  if "hasOwnProperty" ∈ v.names then ⟨[], true⟩
  else
    match v.handler? c.method with
    | none => ⟨[.error ("method handler does not exist for this destination: " ++ c.method)], false⟩
    | some handler => handler c

/-- `Export`. -/
def Export : Exportable → Except String Handler
  | .function fn => .ok (exportFunc fn)
  | .object v => .ok v.serveRPC
  | .other => .error "can only export functions and objects"

/-! ## What is answered once -/

/-- A thrown value that `r.return` is called once for: one that only the last case matches and that
has a text, undefined, or an object that has a message and no text. -/
def Value.ThrownOnce : Value → Prop
  | .undefined | .boolean _ | .number _ | .bigint _ => True
  | .null | .string _ | .symbol => False
  | .object true _ _ text _ => text.isSome
  | .object false _ message text _ => (message.bind newError).isSome ∧ text = none

def Outcome.Once (codec : Codec) : Outcome → Prop
  | .returned v => v.orNull.Sendable codec
  | .threw e => e.ThrownOnce

def Methods.Once (codec : Codec) (v : Methods) (c : Call) : Prop :=
  "hasOwnProperty" ∉ v.names ∧
    (c.method ∈ v.names → c.method ≠ "__proto__" →
      ∀ fn, v.method c.method = some fn → (fn c.args).Once codec)

def Exportable.Once (codec : Codec) (c : Call) : Exportable → Prop
  | .function fn => (fn c.args).Once codec
  | .object v => v.Once codec c
  | .other => True

/-! ## The calls of `r.return` -/

theorem runCases_cons_none {e : Value} {c : Case} (cs : List Case) (h : c.reply? e = none) :
    runCases e (c :: cs) = ⟨[], true⟩ := by
  rw [runCases, h]

theorem runCases_cons_some {e v : Value} {c : Case} (cs : List Case) (h : c.reply? e = some v) :
    (runCases e (c :: cs)).returns = v :: (runCases e cs).returns := by
  rw [runCases, h]

/-- The last case calls `r.return` if the value has a text. -/
theorem default_length (e : Value) :
    (runCases e [.default]).returns.length = if e.text?.isSome then 1 else 0 := by
  cases h : e.text? with
  | none =>
    have hreply : Case.default.reply? e = none := by rw [Case.reply?, h]; rfl
    rw [runCases_cons_none [] hreply]
    rfl
  | some text =>
    have hreply : Case.default.reply? e = some (.error ("unknown error: " ++ text)) := by
      rw [Case.reply?, h]
      rfl
    rw [runCases_cons_some [] hreply]
    rfl

/-- The last two, for an object: once for the message, and then for the text. -/
theorem object_length (e : Value) :
    (runCases e [.object, .default]).returns.length =
      if (e.message?.bind Value.newError).isSome then (if e.text?.isSome then 2 else 1) else 0 := by
  cases h : e.message?.bind Value.newError with
  | none =>
    have hreply : Case.object.reply? e = none := h
    rw [runCases_cons_none _ hreply]
    rfl
  | some v =>
    have hreply : Case.object.reply? e = some v := h
    rw [runCases_cons_some _ hreply, List.length_cons, default_length]
    split <;> rfl

/-- A text runs through all the cases. -/
theorem catchError_string (s : String) : (catchError (.string s)).returns =
    [s, "unknown error", "", "unknown error: " ++ s].map Value.error := rfl

theorem catchError_once (e : Value) : (catchError e).returns.length = 1 ↔ e.ThrownOnce := by
  cases e with
  | undefined => exact iff_of_true rfl trivial
  | null => exact iff_of_false (by decide) id
  | boolean b => exact iff_of_true rfl trivial
  | number text => exact iff_of_true rfl trivial
  | bigint n => exact iff_of_true rfl trivial
  | string s =>
    rw [catchError_string]
    exact iff_of_false (by simp) id
  | symbol => exact iff_of_false (by decide) id
  | object callable isError message text str =>
    cases callable with
    | true =>
      show (runCases _ [.default]).returns.length = 1 ↔ text.isSome
      rw [default_length]
      show (if text.isSome then 1 else 0) = 1 ↔ _
      cases text <;> simp
    | false =>
      show (runCases _ [.object, .default]).returns.length = 1 ↔
        (message.bind Value.newError).isSome ∧ text = none
      rw [object_length]
      show (if (message.bind Value.newError).isSome then (if text.isSome then 2 else 1) else 0) = 1 ↔ _
      cases text <;> cases message.bind Value.newError <;> simp

theorem newError_error {m v : Value} (h : m.newError = some v) : ∃ message, v = .error message := by
  unfold Value.newError at h
  split at h
  · exact ⟨"", (Option.some.inj h).symm⟩
  · obtain ⟨message, -, heq⟩ := Option.map_eq_some_iff.mp h
    exact ⟨message, heq.symm⟩

/-- Whatever the cases return is an error with a text. -/
theorem reply_error {e v : Value} {c : Case} (h : c.reply? e = some v) :
    ∃ message, v = .error message := by
  cases c with
  | string => exact newError_error h
  | undefined => exact ⟨_, (Option.some.inj h).symm⟩
  | object =>
    obtain ⟨m, -, hm⟩ := Option.bind_eq_some_iff.mp h
    exact newError_error hm
  | default =>
    obtain ⟨text, -, heq⟩ := Option.map_eq_some_iff.mp h
    exact ⟨_, heq.symm⟩

theorem runCases_error {e v : Value} {cs : List Case} (h : v ∈ (runCases e cs).returns) :
    ∃ message, v = .error message := by
  induction cs with
  | nil => cases h
  | cons c cs ih =>
    cases hc : c.reply? e with
    | none =>
      rw [runCases_cons_none cs hc] at h
      cases h
    | some w =>
      rw [runCases_cons_some cs hc] at h
      rcases List.mem_cons.mp h with rfl | h
      · exact reply_error hc
      · exact ih h

/-- The codec encodes what is written for an error with a text. -/
theorem sendable_error (codec : Codec) (message : String) : (Value.error message).Sendable codec :=
  ⟨.string message, .null, rfl, codec.header_string message, codec.value_null⟩

/-! ## The handlers -/

open Responder in
theorem exportFunc_once (codec : Codec) (fn : Fn) (c : Call) :
    AnsweredOnce codec (exportFunc fn c).returns ↔ (fn c.args).Once codec := by
  rw [answeredOnce_iff, exportFunc]
  cases fn c.args with
  | returned v =>
    constructor
    · rintro ⟨w, hw, hsend⟩
      cases hw
      exact hsend
    · exact fun h => ⟨_, rfl, h⟩
  | threw e =>
    show (∃ v, (catchError e).returns = [v] ∧ _) ↔ e.ThrownOnce
    rw [← catchError_once, List.length_eq_one_iff]
    constructor
    · exact fun ⟨v, hv, _⟩ => ⟨v, hv⟩
    · rintro ⟨v, hv⟩
      obtain ⟨message, rfl⟩ := runCases_error (e := e) (v := v) (hv ▸ List.mem_singleton_self v)
      exact ⟨_, hv, sendable_error codec message⟩

/-- A method that is not there is answered with an error. -/
theorem serveRPC_once (codec : Codec) (v : Methods) (c : Call) :
    Responder.AnsweredOnce codec (v.serveRPC c).returns ↔ v.Once codec c := by
  rw [Methods.serveRPC, Methods.Once]
  by_cases hown : "hasOwnProperty" ∈ v.names
  · rw [if_pos hown]
    exact iff_of_false (fun h => absurd h.started (by decide)) fun h => h.1 hown
  · rw [if_neg hown, Methods.handler?]
    by_cases hname : c.method ∈ v.names ∧ c.method ≠ "__proto__"
    · rw [if_pos hname]
      cases hfn : v.method c.method with
      | none =>
        refine iff_of_true ?_ ⟨hown, fun _ _ fn h => by cases h⟩
        exact (Responder.answeredOnce_iff codec _).mpr ⟨_, rfl, sendable_error codec _⟩
      | some fn =>
        refine (exportFunc_once codec fn c).trans ⟨fun h => ⟨hown, fun _ _ fn' heq => ?_⟩, fun h => ?_⟩
        · cases heq
          exact h
        · exact h.2 hname.1 hname.2 fn rfl
    · rw [if_neg hname]
      refine iff_of_true ?_ ⟨hown, fun hm hp => absurd ⟨hm, hp⟩ hname⟩
      exact (Responder.answeredOnce_iff codec _).mpr ⟨_, rfl, sendable_error codec _⟩

/-- A call is answered once exactly if what the function comes to is of a kind that is. -/
theorem export_answers_once (codec : Codec) (v : Exportable) (handler : Handler)
    (h : Export v = .ok handler) (c : Call) :
    Responder.AnsweredOnce codec (handler c).returns ↔ v.Once codec c := by
  cases v with
  | function fn =>
    cases h
    exact exportFunc_once codec fn c
  | object v =>
    cases h
    exact serveRPC_once codec v c
  | other => cases h

/-- A text that is returned, and a number that is thrown. -/
theorem export_answers_two :
    Responder.AnsweredOnce msgpack
        (exportFunc (fun _ => .returned (.string "ok")) ⟨"f", .null⟩).returns ∧
      Responder.AnsweredOnce msgpack (exportFunc (fun _ => .threw (.number "7")) ⟨"f", .null⟩).returns := by
  constructor
  · exact (export_answers_once msgpack (.function fun _ => .returned (.string "ok")) _ rfl _).mpr
      ⟨.undefined, .string "ok", rfl, rfl, rfl⟩
  · exact (export_answers_once msgpack (.function fun _ => .threw (.number "7")) _ rfl _).mpr trivial

/-- A text that is thrown is answered four times, and the lengths of all four headers are written
before the first of them; an `Error` is answered twice, and null never. -/
theorem throw_not_answered_once :
    let thrown (e : Value) := (exportFunc (fun _ => .threw e) ⟨"f", .null⟩).returns
    (thrown (.string "no")).length = 4 ∧
      (Responder.respond msgpack (thrown (.string "no"))).writes.length = 4 ∧
      (thrown (.error "no")).length = 2 ∧ (thrown .null).length = 0 ∧
      ¬ ∀ codec fn c, Responder.AnsweredOnce codec (exportFunc fn c).returns := by
  refine ⟨rfl, ?_, rfl, rfl, fun h => ?_⟩
  · exact Responder.respond_errors msgpack ["no", "unknown error", "", "unknown error: no"]
  · exact absurd (h msgpack (fun _ => .threw (.string "no")) ⟨"f", .null⟩).started (by decide)

end Qtalk.Legacy
