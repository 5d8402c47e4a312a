import Mathlib.Algebra.BigOperators.Group.List.Basic
import Mathlib.Algebra.Order.Ring.Nat

/-!
# Repeated decoding and self-delimiting encodings

A decoder takes a stream state, reports a value or an error and leaves a new
state. `decodes` calls it `n` times in a row. For a decoder over plain lists two
laws make the encoding self-delimiting: it reads an encoding off the front of any
stream (`Reads`), and what it returns stood encoded at the front (`Consumes`).
Under the first a concatenation of encodings decodes to the list of values; under
the second the values returned account for every element consumed.
-/

namespace Qtalk.Lib

section Repeat

variable {σ E M : Type}

/-- The results of `n` calls of `dec`, one after the other, and the state left. -/
def decodes (dec : σ → Except E M × σ) : Nat → σ → List (Except E M) × σ
  | 0, s => ([], s)
  | n + 1, s =>
    let (r, s') := dec s
    let (rs, s'') := decodes dec n s'
    (r :: rs, s'')

variable (dec : σ → Except E M × σ)

@[simp] theorem decodes_zero (s : σ) : decodes dec 0 s = ([], s) := rfl

theorem decodes_succ (n : Nat) (s : σ) :
    decodes dec (n + 1) s
      = ((dec s).1 :: (decodes dec n (dec s).2).1, (decodes dec n (dec s).2).2) := rfl

@[simp] theorem decodes_length (n : Nat) (s : σ) : (decodes dec n s).1.length = n := by
  induction n generalizing s with
  | zero => rfl
  | succ n ih => simp [decodes_succ, ih]

/-- Two runs of decoding in a row. -/
theorem decodes_add (m n : Nat) (s : σ) :
    decodes dec (m + n) s
      = ((decodes dec m s).1 ++ (decodes dec n (decodes dec m s).2).1,
         (decodes dec n (decodes dec m s).2).2) := by
  induction m generalizing s with
  | zero => simp
  | succ m ih =>
    rw [Nat.add_right_comm, decodes_succ, ih, decodes_succ]
    rfl

/-- Runs that agree on every result agree on the first one and on the runs that
follow it. -/
theorem decodes_agree {τ : Type} {dec : σ → Except E M × σ} {dec' : τ → Except E M × τ}
    {s : σ} {t : τ} (h : ∀ n, (decodes dec n s).1 = (decodes dec' n t).1) :
    (dec s).1 = (dec' t).1 ∧
      ∀ n, (decodes dec n (dec s).2).1 = (decodes dec' n (dec' t).2).1 := by
  have step : ∀ n, (dec s).1 = (dec' t).1 ∧
      (decodes dec n (dec s).2).1 = (decodes dec' n (dec' t).2).1 := by
    intro n
    have := h (n + 1)
    simpa only [decodes_succ, List.cons.injEq] using this
  exact ⟨(step 0).1, fun n => (step n).2⟩

end Repeat

section SelfDelimiting

variable {B E M : Type} (dec : List B → Except E M × List B) (enc : M → List B)

/-- `dec` reads the encoding of `m` off the front of any stream. -/
def Reads (m : M) : Prop :=
  ∀ rest, dec (enc m ++ rest) = (.ok m, rest)

/-- Whatever `dec` returns stood encoded at the front of the stream, and is all
that was taken from it. -/
def Consumes : Prop :=
  ∀ s m rest, dec s = (.ok m, rest) → s = enc m ++ rest

variable {dec enc}

/-- A concatenation of encodings decodes to the list of values. -/
theorem decodes_flatMap {ms : List M} (h : ∀ m ∈ ms, Reads dec enc m) (rest : List B) :
    decodes dec ms.length (ms.flatMap enc ++ rest) = (ms.map .ok, rest) := by
  induction ms with
  | nil => rfl
  | cons m ms ih =>
    have hm := h m List.mem_cons_self (ms.flatMap enc ++ rest)
    have hms := ih fun m' hm' => h m' (List.mem_cons_of_mem m hm')
    rw [List.flatMap_cons, List.append_assoc, List.length_cons, decodes_succ, hm, hms]
    rfl

/-- The values returned account for every element consumed. -/
theorem decodes_consumed (h : Consumes dec enc) {n : Nat} {s rest : List B} {ms : List M}
    (hd : decodes dec n s = (ms.map .ok, rest)) : s = ms.flatMap enc ++ rest := by
  induction n generalizing s ms with
  | zero =>
    cases ms with
    | nil => simpa using congrArg Prod.snd hd
    | cons m ms => simp at hd
  | succ n ih =>
    rw [decodes_succ, Prod.mk.injEq] at hd
    obtain ⟨hr, hs⟩ := hd
    cases ms with
    | nil => simp at hr
    | cons m ms =>
      rw [List.map_cons, List.cons.injEq] at hr
      have first := h s m (dec s).2 (Prod.ext hr.1 rfl)
      have others := ih (s := (dec s).2) (Prod.ext hr.2 hs)
      rw [first, others, List.flatMap_cons, List.append_assoc]

end SelfDelimiting

end Qtalk.Lib
