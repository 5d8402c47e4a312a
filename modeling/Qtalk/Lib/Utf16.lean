import Mathlib.Data.Nat.Basic

/-!
# Strings of 16-bit code units

A string of code units is a list of code points: characters, of one unit or of a pair of
surrogates, and surrogates that have no partner. Taking the units of its points gives the
string back (`units_codePoints`).
-/

namespace Qtalk.Lib.Utf16

def IsLead (u : UInt16) : Prop := 0xd800 ≤ u.toNat ∧ u.toNat < 0xdc00

def IsTrail (u : UInt16) : Prop := 0xdc00 ≤ u.toNat ∧ u.toNat < 0xe000

instance (u : UInt16) : Decidable (IsLead u) := inferInstanceAs (Decidable (_ ∧ _))

instance (u : UInt16) : Decidable (IsTrail u) := inferInstanceAs (Decidable (_ ∧ _))

inductive CodePoint where
  | char (c : Char)
  /-- a surrogate without its partner -/
  | lone (u : UInt16)
  deriving DecidableEq, Repr

/-- The units of a character. -/
def charUnits (c : Char) : List UInt16 :=
  if c.toNat < 0x10000 then [UInt16.ofNat c.toNat]
  else
    [UInt16.ofNat (0xd800 + (c.toNat - 0x10000) / 0x400),
      UInt16.ofNat (0xdc00 + (c.toNat - 0x10000) % 0x400)]

def CodePoint.units : CodePoint → List UInt16
  | .char c => charUnits c
  | .lone u => [u]

/-- The character of a pair of surrogates. -/
def pair (u v : UInt16) : Char :=
  Char.ofNat (0x10000 + (u.toNat - 0xd800) * 0x400 + (v.toNat - 0xdc00))

def codePoints : List UInt16 → List CodePoint
  | [] => []
  | [u] => if IsLead u ∨ IsTrail u then [.lone u] else [.char (Char.ofNat u.toNat)]
  | u :: v :: s =>
    if IsLead u then
      if IsTrail v then .char (pair u v) :: codePoints s else .lone u :: codePoints (v :: s)
    else if IsTrail u then .lone u :: codePoints (v :: s)
    else .char (Char.ofNat u.toNat) :: codePoints (v :: s)

theorem toNat_char {n : Nat} (h : n.isValidChar) : (Char.ofNat n).toNat = n := by
  rw [Char.ofNat, dif_pos h]
  rfl

theorem charUnits_unit {u : UInt16} (hl : ¬IsLead u) (ht : ¬IsTrail u) :
    charUnits (Char.ofNat u.toNat) = [u] := by
  have hlt := u.toNat_lt
  have hvalid : u.toNat.isValidChar := by
    rw [Nat.isValidChar]
    rw [IsLead] at hl
    rw [IsTrail] at ht
    omega
  rw [charUnits, toNat_char hvalid, if_pos hlt, UInt16.ofNat_toNat]

theorem charUnits_pair {u v : UInt16} (hl : IsLead u) (ht : IsTrail v) :
    charUnits (pair u v) = [u, v] := by
  obtain ⟨hu, hu'⟩ := hl
  obtain ⟨hv, hv'⟩ := ht
  have hvalid : (0x10000 + (u.toNat - 0xd800) * 0x400 + (v.toNat - 0xdc00)).isValidChar := by
    rw [Nat.isValidChar]
    omega
  have hbig : ¬0x10000 + (u.toNat - 0xd800) * 0x400 + (v.toNat - 0xdc00) < 0x10000 := by omega
  have hfst : 0xd800 + (0x10000 + (u.toNat - 0xd800) * 0x400 + (v.toNat - 0xdc00) - 0x10000) / 0x400
      = u.toNat := by omega
  have hsnd : 0xdc00 + (0x10000 + (u.toNat - 0xd800) * 0x400 + (v.toNat - 0xdc00) - 0x10000) % 0x400
      = v.toNat := by omega
  rw [charUnits, pair, toNat_char hvalid, if_neg hbig, hfst, hsnd, UInt16.ofNat_toNat,
    UInt16.ofNat_toNat]

/-- Nothing is lost in the code points. -/
theorem units_codePoints (s : List UInt16) : (codePoints s).flatMap CodePoint.units = s := by
  induction s using codePoints.induct with
  | case1 => rfl
  | case2 u h => simp [codePoints, h, CodePoint.units]
  | case3 u h =>
    rw [not_or] at h
    simp [codePoints, h, CodePoint.units, charUnits_unit h.1 h.2]
  | case4 u v s hl ht ih => simp [codePoints, hl, ht, CodePoint.units, charUnits_pair hl ht, ih]
  | case5 u v s hl ht ih => simp [codePoints, hl, ht, CodePoint.units, ih]
  | case6 u v s hl ht ih => simp [codePoints, hl, ht, CodePoint.units, ih]
  | case7 u v s hl ht ih => simp [codePoints, hl, ht, CodePoint.units, charUnits_unit hl ht, ih]

end Qtalk.Lib.Utf16
