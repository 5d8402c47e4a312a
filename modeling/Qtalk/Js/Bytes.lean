import Qtalk.Lib.BigEndian

/-!
# Typed arrays

What the code under `javascript/` does with `Uint8Array` and `DataView`, `concat` of
`mux/util.ts`, and the part that both `read`s share. Every array here owns its buffer, so a
view ranges over the array. `none` is the `RangeError` of an access that does not fit.
-/

namespace Qtalk.Js
open Qtalk.Lib

/-- `setUint32`, big-endian; a number counts modulo 2^32. -/
def setUint32 (buf : List UInt8) (i v : Nat) : List UInt8 :=
  buf.take i ++ beBytes (UInt32.ofNat v) ++ buf.drop (i + 4)

/-- `getUint32`, big-endian. -/
def getUint32 (buf : List UInt8) (i : Nat) : Option Nat :=
  if i + 4 ≤ buf.length then some (beWord (buf.drop i)).toNat else none

/-- `buf.set(src, offset)`. -/
def setArray (buf src : List UInt8) (offset : Nat) : Option (List UInt8) :=
  if offset + src.length ≤ buf.length then
    some (buf.take offset ++ src ++ buf.drop (offset + src.length))
  else none

/-- The loop of `concat`. -/
def concatAt (buf : List UInt8) (offset : Nat) : List (List UInt8) → Option (List UInt8)
  | [] => some buf
  | el :: list => do concatAt (← setArray buf el offset) (offset + el.length) list

/-- `concat`. -/
def concat (list : List (List UInt8)) (totalLength : Nat) : Option (List UInt8) :=
  concatAt (List.replicate totalLength 0) 0 list

/-- How a `tryRead` for `len` bytes is served from a buffer: the bytes for the reader and
the buffer left. A zero length asks for whatever there is. -/
def serve (len : Nat) (buf : List UInt8) : Option (List UInt8 × List UInt8) :=
  if len = 0 ∧ 0 < buf.length then some (buf, [])
  else if len ≤ buf.length then some (buf.take len, buf.drop len)
  else none

theorem serve_enough {len : Nat} {buf : List UInt8} (hlen : 0 < len) (h : len ≤ buf.length) :
    serve len buf = some (buf.take len, buf.drop len) := by
  rw [serve, if_neg (by omega), if_pos h]

theorem serve_short {len : Nat} {buf : List UInt8} (h : buf.length < len) : serve len buf = none := by
  rw [serve, if_neg (by omega), if_neg (by omega)]

theorem serve_empty : serve 0 [] = some ([], []) := rfl

/-- A read of no bytes takes the whole buffer. -/
theorem serve_zero {buf : List UInt8} (h : buf ≠ []) : serve 0 buf = some (buf, []) := by
  rw [serve, if_pos ⟨rfl, List.length_pos_iff.mpr h⟩]

theorem setArray_front (front src : List UInt8) (k : Nat) :
    setArray (front ++ List.replicate k 0) src front.length =
      if src.length ≤ k then some (front ++ src ++ List.replicate (k - src.length) 0) else none := by
  rw [setArray]
  by_cases h : src.length ≤ k
  · rw [if_pos h, if_pos (by simp; omega), List.take_left]
    simp [List.drop_append, List.drop_replicate]
  · rw [if_neg h, if_neg (by simp; omega)]

theorem concatAt_eq (front : List UInt8) (k : Nat) (list : List (List UInt8)) :
    concatAt (front ++ List.replicate k 0) front.length list =
      if list.flatten.length ≤ k then
        some (front ++ list.flatten ++ List.replicate (k - list.flatten.length) 0)
      else none := by
  induction list generalizing front k with
  | nil => simp [concatAt]
  | cons el list ih =>
    rw [concatAt, setArray_front, List.flatten_cons, List.length_append]
    by_cases h : el.length ≤ k
    · have := ih (front ++ el) (k - el.length)
      rw [List.length_append] at this
      rw [if_pos h, Option.bind_eq_bind, Option.bind_some, this]
      by_cases h' : list.flatten.length ≤ k - el.length
      · rw [if_pos h', if_pos (by omega), List.append_assoc front, Nat.sub_sub]
      · rw [if_neg h', if_neg (by omega)]
    · rw [if_neg h, if_neg (by omega)]
      rfl

/-- `concat` with the right total. -/
theorem concat_eq {list : List (List UInt8)} {n : Nat} (h : list.flatten.length = n) :
    concat list n = some list.flatten := by
  have := concatAt_eq [] n list
  rw [List.nil_append, List.length_nil, if_pos (Nat.le_of_eq h), h, Nat.sub_self] at this
  simpa [concat] using this

/-- `concat` with too small a total. -/
theorem concat_short {list : List (List UInt8)} {n : Nat} (h : n < list.flatten.length) :
    concat list n = none := by
  have := concatAt_eq [] n list
  rw [List.nil_append, List.length_nil, if_neg (by omega)] at this
  exact this

end Qtalk.Js
