import Mathlib.Algebra.BigOperators.Group.List.Basic
import Mathlib.Algebra.Order.Ring.Nat

/-!
# Big-endian 32-bit words

The four-byte big-endian representation of a `UInt32`, stated with arithmetic on
`toNat` so that `omega` settles every fact about it. Nothing here depends on a
particular format: a wire format instantiates `beBytes` and `beWord` at its own
offsets.
-/

namespace Qtalk.Lib

/-- The byte of `v` with weight `256 ^ i`. -/
def beByte (v : UInt32) (i : Nat) : UInt8 := UInt8.ofNat (v.toNat / 256 ^ i)

/-- The four bytes of `v`, most significant first. -/
def beBytes (v : UInt32) : List UInt8 :=
  [beByte v 3, beByte v 2, beByte v 1, beByte v 0]

/-- The word whose bytes, most significant first, are `b0 b1 b2 b3`. -/
def beOf (b0 b1 b2 b3 : UInt8) : UInt32 :=
  UInt32.ofNat (b0.toNat * 256 ^ 3 + b1.toNat * 256 ^ 2 + b2.toNat * 256 + b3.toNat)

/-- The word at the front of a byte string; zero where four bytes are missing. -/
def beWord : List UInt8 → UInt32
  | b0 :: b1 :: b2 :: b3 :: _ => beOf b0 b1 b2 b3
  | _ => 0

@[simp] theorem beBytes_length (v : UInt32) : (beBytes v).length = 4 := rfl

theorem beOf_toNat (b0 b1 b2 b3 : UInt8) :
    (beOf b0 b1 b2 b3).toNat
      = b0.toNat * 256 ^ 3 + b1.toNat * 256 ^ 2 + b2.toNat * 256 + b3.toNat := by
  have h0 := b0.toNat_lt
  have h1 := b1.toNat_lt
  have h2 := b2.toNat_lt
  have h3 := b3.toNat_lt
  simp only [beOf, UInt32.toNat_ofNat']
  omega

/-- The four bytes of a word spell it. -/
@[simp] theorem beOf_bytes (v : UInt32) :
    beOf (beByte v 3) (beByte v 2) (beByte v 1) (beByte v 0) = v := by
  have hv := v.toNat_lt
  apply UInt32.toNat_inj.mp
  simp only [beOf_toNat, beByte, UInt8.toNat_ofNat']
  omega

/-- Reading back the bytes of a word gives the word. -/
@[simp] theorem beWord_beBytes (v : UInt32) (rest : List UInt8) : beWord (beBytes v ++ rest) = v :=
  beOf_bytes v

/-- Only the first four bytes count. -/
@[simp] theorem beWord_take (b : List UInt8) : beWord (b.take 4) = beWord b := by
  rcases b with _ | ⟨b0, _ | ⟨b1, _ | ⟨b2, _ | ⟨b3, b⟩⟩⟩⟩ <;> rfl

/-- Four bytes are the bytes of the word they spell. -/
theorem beBytes_beOf (b0 b1 b2 b3 : UInt8) : beBytes (beOf b0 b1 b2 b3) = [b0, b1, b2, b3] := by
  have h0 := b0.toNat_lt
  have h1 := b1.toNat_lt
  have h2 := b2.toNat_lt
  have h3 := b3.toNat_lt
  simp only [beBytes, beByte, beOf_toNat, List.cons.injEq, and_true]
  refine ⟨?_, ?_, ?_, ?_⟩ <;>
  · apply UInt8.toNat_inj.mp
    simp only [UInt8.toNat_ofNat']
    omega

theorem beBytes_beWord {b : List UInt8} (h : b.length = 4) : beBytes (beWord b) = b := by
  obtain ⟨b0, b1, b2, b3, rfl⟩ := List.length_eq_four.mp h
  exact beBytes_beOf b0 b1 b2 b3

/-- A byte string of at least four bytes starts with the bytes of its word. -/
theorem beBytes_append_drop {b : List UInt8} (h : 4 ≤ b.length) :
    beBytes (beWord b) ++ b.drop 4 = b := by
  have h4 : (b.take 4).length = 4 := by simp [h]
  rw [← beWord_take, beBytes_beWord h4, List.take_append_drop]

/-- `n` words in a row. -/
def beWords (ws : List UInt32) : List UInt8 := ws.flatMap beBytes

/-- A byte string of `4 * n` bytes is the bytes of `n` words. -/
theorem exists_beWords {n : Nat} {b : List UInt8} (h : b.length = 4 * n) :
    ∃ ws : List UInt32, ws.length = n ∧ beWords ws = b := by
  induction n generalizing b with
  | zero => exact ⟨[], rfl, (List.length_eq_zero_iff.mp (by omega)).symm⟩
  | succ n ih =>
    obtain ⟨ws, hws, hb⟩ := ih (b := b.drop 4) (by simp; omega)
    refine ⟨beWord b :: ws, by simp [hws], ?_⟩
    rw [beWords, List.flatMap_cons, ← beWords, hb, beBytes_append_drop (by omega)]

end Qtalk.Lib
