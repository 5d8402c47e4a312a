import Mathlib.Algebra.BigOperators.Group.List.Basic
import Mathlib.Algebra.Order.Ring.Nat

/-!
# Sums over a list of calls in progress

A list holds the calls in progress; one of them moves on (`set`) or ends (`eraseIdx`).
For either there is the change of a sum over the list, and what holds of all of them still does.
An entry of the new list is an old one or the one that was put there.
-/

namespace Qtalk.Lib

variable {α : Type}

/-- The sum of a weight over a list. -/
def total (f : α → Nat) (l : List α) : Nat := (l.map f).sum

@[simp] theorem total_nil (f : α → Nat) : total f [] = 0 := rfl

@[simp] theorem total_cons (f : α → Nat) (a : α) (l : List α) :
    total f (a :: l) = f a + total f l := rfl

@[simp] theorem total_append (f : α → Nat) (l l' : List α) :
    total f (l ++ l') = total f l + total f l' := by
  simp [total]

theorem total_set {f : α → Nat} {l : List α} {k : Nat} {a b : α} (h : l[k]? = some a) :
    total f (l.set k b) + f a = total f l + f b := by
  induction l generalizing k with
  | nil => cases h
  | cons x l ih =>
    cases k with
    | zero =>
      cases h
      simp only [List.set_cons_zero, total_cons]
      omega
    | succ k =>
      have := ih h
      simp only [List.set_cons_succ, total_cons]
      omega

theorem total_eraseIdx {f : α → Nat} {l : List α} {k : Nat} {a : α} (h : l[k]? = some a) :
    total f (l.eraseIdx k) + f a = total f l := by
  induction l generalizing k with
  | nil => cases h
  | cons x l ih =>
    cases k with
    | zero =>
      cases h
      simp only [List.eraseIdx_cons_zero, total_cons]
      omega
    | succ k =>
      have := ih h
      simp only [List.eraseIdx_cons_succ, total_cons]
      omega

theorem forall_set {P : α → Prop} {l : List α} {k : Nat} {b : α} (h : ∀ a ∈ l, P a) (hb : P b) :
    ∀ a ∈ l.set k b, P a := by
  intro a ha
  rcases List.mem_or_eq_of_mem_set ha with ha | rfl
  · exact h a ha
  · exact hb

theorem forall_eraseIdx {P : α → Prop} {l : List α} {k : Nat} (h : ∀ a ∈ l, P a) :
    ∀ a ∈ l.eraseIdx k, P a :=
  fun a ha => h a (List.mem_of_mem_eraseIdx ha)

theorem le_total {f : α → Nat} {l : List α} {k : Nat} {a : α} (h : l[k]? = some a) :
    f a ≤ total f l := by
  have := total_eraseIdx (f := f) h
  omega

/-- An entry of a list in which one is replaced. -/
theorem getElem?_set_cases {l : List α} {i j : Nat} {a b : α} (h : (l.set i a)[j]? = some b) :
    (j = i ∧ b = a) ∨ (j ≠ i ∧ l[j]? = some b) := by
  rw [List.getElem?_set] at h
  split at h
  · next heq =>
    split at h
    · exact .inl ⟨heq.symm, (Option.some.inj h).symm⟩
    · cases h
  · next hne => exact .inr ⟨fun heq => hne heq.symm, h⟩

/-- An entry of a list to which one is added. -/
theorem getElem?_snoc_cases {l : List α} {j : Nat} {a b : α} (h : (l ++ [a])[j]? = some b) :
    (j = l.length ∧ b = a) ∨ (j < l.length ∧ l[j]? = some b) := by
  rw [List.getElem?_append] at h
  split at h
  · next hlt => exact .inr ⟨hlt, h⟩
  · obtain ⟨hlt, heq⟩ := List.getElem?_eq_some_iff.mp h
    simp only [List.length_singleton] at hlt
    exact .inl ⟨by omega, by simpa using heq.symm⟩

end Qtalk.Lib
