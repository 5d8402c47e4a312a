import Qtalk.Js.FrameCodec
import Qtalk.Js.Paths
import Qtalk.Lib.Json

/-!
# The JSON codec

`JSONCodec` of `javascript/rpc/codec.ts`: `JSON.stringify` and `TextEncoder` one way,
`TextDecoder` and `JSON.parse` the other. `JSON.stringify` of undefined, of a function and of a
symbol is undefined, and `TextEncoder` makes no bytes of that.
-/

namespace Qtalk.Js.Rpc
open Qtalk.Lib Qtalk.Lib.Utf16

/-- A number; `finite` has those that are finite and not -0. -/
inductive JsNumber (N : Type) where
  | finite (n : N)
  | negativeZero
  | nan
  | infinity (negative : Bool)
  deriving DecidableEq, Repr

/-- A value as `JSON.stringify` sees it: for an object with a `toJSON` method what that returns, and
of other objects the own enumerable properties with string keys. -/
inductive JsValue (N : Type) where
  | undefined
  | function
  | symbol
  /-- a BigInt, an object that contains itself, one with a getter or a `toJSON` that throws -/
  | throwing (e : String)
  | null
  | bool (b : Bool)
  | number (x : JsNumber N)
  | string (s : List UInt16)
  /-- a hole is undefined -/
  | array (elems : List (JsValue N))
  | object (props : List (List UInt16 × JsValue N))

/-- What is the engine's: the text of its numbers, the longest string, and what `TextDecoder`
makes of bytes that are not UTF-8. -/
structure Engine (N : Type) where
  numbers : NumberText N
  zero : N
  maxLength : Nat
  short : 3 * maxLength < 2 ^ 32
  replaced : List UInt8 → List Char

variable {N : Type}

mutual

/-- No object has two properties with one key. -/
def JsValue.Distinct : JsValue N → Prop
  | .array elems => DistinctElems elems
  | .object props => (props.map Prod.fst).Nodup ∧ DistinctProps props
  | _ => True

def DistinctElems : List (JsValue N) → Prop
  | [] => True
  | v :: elems => v.Distinct ∧ DistinctElems elems

def DistinctProps : List (List UInt16 × JsValue N) → Prop
  | [] => True
  | (_, v) :: props => v.Distinct ∧ DistinctProps props

end

namespace Engine

variable (eng : Engine N)

/-- The JSON value of a number. -/
def number : JsNumber N → Json N
  | .finite n => .number n
  | .negativeZero => .number eng.zero
  | .nan => .null
  | .infinity _ => .null

mutual

/-- What `JSON.stringify` gives the text of; `none` is undefined. -/
def serialize : JsValue N → Except String (Option (Json N))
  | .undefined => .ok none
  | .function => .ok none
  | .symbol => .ok none
  | .throwing e => .error e
  | .null => .ok (some .null)
  | .bool b => .ok (some (.bool b))
  | .number x => .ok (some (eng.number x))
  | .string s => .ok (some (.string s))
  | .array elems => (serializeElems elems).map fun js => some (.array js)
  | .object props => (serializeProps props).map fun ms => some (.object ms)

/-- An element that is undefined is null. -/
def serializeElems : List (JsValue N) → Except String (List (Json N))
  | [] => .ok []
  | v :: elems =>
    (serialize v).bind fun j => (serializeElems elems).map fun js => j.getD .null :: js

/-- A property that is undefined is left out. -/
def serializeProps : List (List UInt16 × JsValue N) → Except String (List (List UInt16 × Json N))
  | [] => .ok []
  | (k, v) :: props =>
    (serialize v).bind fun j => (serializeProps props).map fun ms =>
      (j.toList.map fun j => (k, j)) ++ ms

end

/-- The JSON value of a value; undefined has null. -/
def json (v : JsValue N) : Json N :=
  match eng.serialize v with
  | .ok (some j) => j
  | _ => .null

/-- `JSON.stringify`. -/
def stringify (v : JsValue N) : Except String (Option (List Char)) :=
  match eng.serialize v with
  | .error e => .error e
  | .ok none => .ok none
  | .ok (some j) =>
    let text := j.print eng.numbers
    if eng.maxLength < (utf16 text).length then .error "Invalid string length" else .ok (some text)

/-- `TextEncoder.encode`; its argument is the empty string by default. -/
def textEncode (text : Option (List Char)) : List UInt8 := utf8 (text.getD [])

/-- `TextDecoder.decode`, which drops a byte order mark. -/
def textDecode (buf : List UInt8) : List Char :=
  let text :=
    match buf.toByteArray.utf8Decode? with
    | some text => text.toList
    | none => eng.replaced buf
  if text.head? = some '\uFEFF' then text.tail else text

/-- `JSONCodec.encode`. -/
def encode (v : JsValue N) : Except String (List UInt8) := (eng.stringify v).map textEncode

/-- `JSONCodec.decode`. -/
def decode (buf : List UInt8) : Option (Json N) := Json.parse eng.numbers (eng.textDecode buf)

/-- The codec on JSON values. -/
def jsonCodec : Codec (Json N) where
  encode j := textEncode (some (j.print eng.numbers))
  decode := eng.decode

/-! ## What is encoded is decoded -/

theorem serializeElems_cons {v : JsValue N} {elems : List (JsValue N)} {js : List (Json N)}
    (h : eng.serializeElems (v :: elems) = .ok js) :
    ∃ j more, eng.serialize v = .ok j ∧ eng.serializeElems elems = .ok more ∧ js = j.getD .null :: more := by
  rw [serializeElems] at h
  cases hv : eng.serialize v with
  | error e =>
    rw [hv] at h
    cases h
  | ok j =>
    cases he : eng.serializeElems elems with
    | error e =>
      rw [hv, he] at h
      cases h
    | ok more =>
      rw [hv, he] at h
      cases h
      exact ⟨j, more, rfl, rfl, rfl⟩

theorem serializeProps_cons {k : List UInt16} {v : JsValue N} {props : List (List UInt16 × JsValue N)}
    {ms : List (List UInt16 × Json N)} (h : eng.serializeProps ((k, v) :: props) = .ok ms) :
    ∃ j more, eng.serialize v = .ok j ∧ eng.serializeProps props = .ok more ∧
      ms = (j.toList.map fun j => (k, j)) ++ more := by
  rw [serializeProps] at h
  cases hv : eng.serialize v with
  | error e =>
    rw [hv] at h
    cases h
  | ok j =>
    cases hp : eng.serializeProps props with
    | error e =>
      rw [hv, hp] at h
      cases h
    | ok more =>
      rw [hv, hp] at h
      cases h
      exact ⟨j, more, rfl, rfl, rfl⟩

theorem serializeProps_names (props : List (List UInt16 × JsValue N)) :
    ∀ ms, eng.serializeProps props = .ok ms → (ms.map Prod.fst).Sublist (props.map Prod.fst) := by
  induction props with
  | nil =>
    intro ms h
    cases h
    exact List.Sublist.refl _
  | cons m props ih =>
    intro ms h
    obtain ⟨k, v⟩ := m
    obtain ⟨j, more, -, hp, rfl⟩ := eng.serializeProps_cons h
    have hmore := ih more hp
    cases j with
    | none => exact hmore.cons k
    | some j => exact hmore.cons_cons k

mutual

/-- A JSON value has no name twice either. -/
theorem serialize_distinct : ∀ (v : JsValue N) (j : Json N), v.Distinct →
    eng.serialize v = .ok (some j) → j.Distinct
  | .undefined, j, _, h => by cases h
  | .function, j, _, h => by cases h
  | .symbol, j, _, h => by cases h
  | .throwing e, j, _, h => by cases h
  | .null, j, _, h => by
    cases h
    trivial
  | .bool b, j, _, h => by
    cases h
    trivial
  | .number x, j, _, h => by
    cases h
    cases x <;> trivial
  | .string s, j, _, h => by
    cases h
    trivial
  | .array elems, j, hd, h => by
    rw [serialize] at h
    cases he : eng.serializeElems elems with
    | error e =>
      rw [he] at h
      cases h
    | ok js =>
      rw [he] at h
      cases h
      exact serializeElems_distinct elems js hd he
  | .object props, j, hd, h => by
    rw [serialize] at h
    cases hp : eng.serializeProps props with
    | error e =>
      rw [hp] at h
      cases h
    | ok ms =>
      rw [hp] at h
      cases h
      exact ⟨hd.1.sublist (eng.serializeProps_names props ms hp), serializeProps_distinct props ms hd.2 hp⟩

theorem serializeElems_distinct : ∀ (elems : List (JsValue N)) (js : List (Json N)),
    DistinctElems elems → eng.serializeElems elems = .ok js → Json.DistinctElems js
  | [], js, _, h => by
    cases h
    trivial
  | v :: elems, js, hd, h => by
    obtain ⟨j, more, hv, he, rfl⟩ := eng.serializeElems_cons h
    refine ⟨?_, serializeElems_distinct elems more hd.2 he⟩
    cases j with
    | none => trivial
    | some j => exact serialize_distinct v j hd.1 hv

theorem serializeProps_distinct : ∀ (props : List (List UInt16 × JsValue N))
    (ms : List (List UInt16 × Json N)), DistinctProps props → eng.serializeProps props = .ok ms →
    Json.DistinctMembers ms
  | [], ms, _, h => by
    cases h
    trivial
  | (k, v) :: props, ms, hd, h => by
    obtain ⟨j, more, hv, hp, rfl⟩ := eng.serializeProps_cons h
    have hmore := serializeProps_distinct props more hd.2 hp
    cases j with
    | none => exact hmore
    | some j => exact ⟨serialize_distinct v j hd.1 hv, hmore⟩

end

theorem textDecode_utf8 {text : List Char} (h : text.head? ≠ some '\uFEFF') :
    eng.textDecode (utf8 text) = text := by
  have hbytes : (utf8 text).toByteArray.utf8Decode? = some text.toArray := by
    have hd := List.utf8Decode?_utf8Encode (l := text)
    rwa [List.utf8Encode] at hd
  rw [textDecode, hbytes]
  exact if_neg h

/-- What `JSONCodec.encode` makes of a JSON value, `decode` undoes. -/
theorem decode_print {j : Json N} (hd : j.Distinct) :
    eng.decode (utf8 (j.print eng.numbers)) = some j := by
  obtain ⟨c, text, hprint, hc⟩ := j.print_head eng.numbers
  have hmark : (j.print eng.numbers).head? ≠ some '\uFEFF' := by
    rw [hprint]
    rintro h
    cases h
    revert hc
    simp [Json.Starts]
  rw [decode, eng.textDecode_utf8 hmark, Json.parse_print eng.numbers hd]

/-- `JSON.parse` of the empty text throws. -/
theorem decode_nil : eng.decode [] = none := by
  have hnil : eng.textDecode (utf8 []) = [] := eng.textDecode_utf8 (by simp)
  rw [decode]
  exact (congrArg _ hnil).trans (Json.parse_nil eng.numbers)

theorem utf8Size_le (c : Char) : c.utf8Size ≤ 3 * (charUnits c).length := by
  have hfour := Char.utf8Size_le_four c
  rw [charUnits]
  split
  · next h =>
    have hle : c.val ≤ 0xffff := by
      rw [UInt32.le_iff_toNat_le]
      exact Nat.le_of_lt_succ h
    rw [List.length_singleton, Char.utf8Size]
    split
    · omega
    · split <;> simp [hle]
  · simp only [List.length_cons, List.length_nil]
    omega

/-- A code unit takes at most three bytes. -/
theorem utf8_length_le (text : List Char) : (utf8 text).length ≤ 3 * (utf16 text).length := by
  induction text with
  | nil => exact Nat.zero_le _
  | cons c text ih =>
    have hchar := utf8Size_le c
    rw [← String.length_utf8EncodeChar] at hchar
    rw [utf8, utf16] at ih ⊢
    rw [List.flatMap_cons, List.flatMap_cons, List.length_append, List.length_append]
    omega

/-- `JSON.stringify` gives a text. -/
theorem stringify_text {v : JsValue N} {text : List Char} (h : eng.stringify v = .ok (some text)) :
    text = (eng.json v).print eng.numbers ∧ eng.serialize v = .ok (some (eng.json v)) ∧
      (utf16 text).length ≤ eng.maxLength := by
  rw [stringify] at h
  split at h
  · cases h
  · cases h
  · next j hj =>
    dsimp only at h
    split at h
    · cases h
    · next hlen =>
      cases h
      have hv : eng.json v = j := by rw [json, hj]
      exact ⟨by rw [hv], by rw [hv, hj], Nat.le_of_not_lt hlen⟩

theorem print_ne_nil (j : Json N) : utf8 (j.print eng.numbers) ≠ [] := by
  obtain ⟨c, text, hprint, -⟩ := j.print_head eng.numbers
  rw [hprint, utf8, List.flatMap_cons]
  intro h
  have hlen := congrArg List.length (List.append_eq_nil_iff.mp h).1
  rw [String.length_utf8EncodeChar] at hlen
  exact absurd hlen (Nat.ne_of_gt c.utf8Size_pos)

/-- A value with a text goes through a frame. -/
theorem framable {v : JsValue N} (hd : v.Distinct) {text : List Char}
    (h : eng.stringify v = .ok (some text)) : Framable eng.jsonCodec (eng.json v) := by
  obtain ⟨htext, hser, hlen⟩ := eng.stringify_text h
  refine ⟨eng.print_ne_nil _, ?_, eng.decode_print (eng.serialize_distinct v _ hd hser)⟩
  have hbytes := utf8_length_le text
  have hshort := eng.short
  have hle : (eng.jsonCodec.encode (eng.json v)).length = (utf8 text).length := by rw [htext]; rfl
  rw [hle]
  omega

end Engine

end Qtalk.Js.Rpc
