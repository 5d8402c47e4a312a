import Mathlib.Data.List.Basic

/-!
# Arrays with holes

Arrays of JavaScript: a slot holds a value, or undefined, or it is a hole, as `delete` leaves
it. Reading does not tell a hole from undefined, `forEach` does: it passes over holes. An array
is the list of its slots, so its length is the list's.
-/

namespace Qtalk.Lib

inductive Slot (α : Type) where
  | hole
  | undefined
  | val (a : α)
  deriving DecidableEq, Repr

/-- What reading a slot gives. -/
def Slot.value? {α : Type} : Slot α → Option α
  | .val a => some a
  | _ => none

/-- A slot set to undefined gets a value; a hole stays one. -/
def Slot.fill {α : Type} (a : α) : Slot α → Slot α
  | .undefined => .val a
  | s => s

abbrev Sparse (α : Type) := List (Slot α)

/-- The most slots an array can have, 2^32 - 1; the number is the first that is no index. -/
def maxLength : Nat := 4294967295

namespace Sparse

variable {α : Type}

/-- `xs[i]`; `none` is undefined. -/
def get (xs : Sparse α) (i : Nat) : Option α := (xs[i]?.bind Slot.value?)

/-- `xs[i] = s`. -/
def assign (xs : Sparse α) (i : Nat) (s : Slot α) : Sparse α :=
  if i < xs.length then xs.set i s else xs ++ List.replicate (i - xs.length) .hole ++ [s]

/-- `xs.push(a)`. -/
def push (xs : Sparse α) (a : α) : Sparse α := xs ++ [.val a]

/-- `delete xs[i]`. -/
def delete (xs : Sparse α) (i : Nat) : Sparse α := xs.set i .hole

/-- A slot `forEach` and `Object.keys` see. -/
def present (xs : Sparse α) (i : Nat) : Bool :=
  match xs[i]? with
  | some .hole | none => false
  | _ => true

/-- `Object.keys(xs)`, as numbers. -/
def keys (xs : Sparse α) : List Nat := (List.range xs.length).filter xs.present

/-- `xs.forEach(f)`, where `f` may change the array: the indices below the length at the call, each
looked at when its turn comes. -/
def forEach (f : Sparse α → Option α → Nat → Sparse α) (xs : Sparse α) : Sparse α :=
  (List.range xs.length).foldl (fun ys i => if ys.present i then f ys (ys.get i) i else ys) xs

/-- No slot was set to undefined. -/
def Defined (xs : Sparse α) : Prop := .undefined ∉ xs

section
variable {xs : Sparse α} {i j : Nat} {a : α}

theorem get_lt (h : xs.get i = some a) : i < xs.length := by
  rw [get] at h
  by_contra hge
  rw [List.getElem?_eq_none (by omega)] at h
  cases h

theorem get_push (xs : Sparse α) (a : α) (i : Nat) :
    (xs.push a).get i = if i = xs.length then some a else xs.get i := by
  rw [push, get, get]
  rcases Nat.lt_trichotomy i xs.length with h | h | h
  · rw [List.getElem?_append_left h, if_neg (by omega)]
  · rw [h, List.getElem?_concat_length, if_pos rfl]
    rfl
  · rw [List.getElem?_eq_none (by rw [List.length_append, List.length_singleton]; omega),
      List.getElem?_eq_none (by omega), if_neg (by omega)]

theorem get_delete (xs : Sparse α) (i j : Nat) :
    (xs.delete i).get j = if j = i then none else xs.get j := by
  rw [delete, get, get, List.getElem?_set]
  by_cases h : i = j
  · subst h
    rw [if_pos rfl, if_pos rfl]
    split <;> rfl
  · rw [if_neg h, if_neg (fun hc => h hc.symm)]

theorem length_assign (xs : Sparse α) (i : Nat) (s : Slot α) :
    (xs.assign i s).length = max xs.length (i + 1) := by
  rw [assign]
  split
  · rw [List.length_set]
    omega
  · simp only [List.length_append, List.length_replicate, List.length_singleton]
    omega

theorem getElem?_assign_self (xs : Sparse α) (i : Nat) (s : Slot α) : (xs.assign i s)[i]? = some s := by
  rw [assign]
  split
  · next h => rw [List.getElem?_set_self h]
  · next h =>
    have hlen : (xs ++ List.replicate (i - xs.length) Slot.hole).length = i := by
      rw [List.length_append, List.length_replicate]
      omega
    rw [List.getElem?_append_right (by omega), hlen, Nat.sub_self, List.getElem?_cons_zero]

theorem getElem?_assign_of_some {s s' : Slot α} (h : xs[j]? = some s') (hne : i ≠ j) :
    (xs.assign i s)[j]? = some s' := by
  obtain ⟨hlt, -⟩ := List.getElem?_eq_some_iff.mp h
  rw [assign]
  split
  · rw [List.getElem?_set_ne hne, h]
  · rw [List.append_assoc, List.getElem?_append_left hlt, h]

/-- The slots that come to be between the end and the index read as undefined. -/
theorem get_assign (xs : Sparse α) (i j : Nat) (s : Slot α) :
    (xs.assign i s).get j = if j = i then s.value? else xs.get j := by
  by_cases hj : j = i
  · rw [if_pos hj, hj, get, getElem?_assign_self, Option.bind_some]
  · rw [if_neg hj, get, get]
    cases hx : xs[j]? with
    | some s' => rw [getElem?_assign_of_some hx fun h => hj h.symm]
    | none =>
      have hge := List.getElem?_eq_none_iff.mp hx
      cases hy : (xs.assign i s)[j]? with
      | none => rfl
      | some s' =>
        rw [assign] at hy
        split at hy
        · rw [List.getElem?_eq_none (by rw [List.length_set]; exact hge)] at hy
          cases hy
        · have hlt : j < xs.length + (i - xs.length) := by
            have hlt := (List.getElem?_eq_some_iff.mp hy).1
            simp only [List.length_append, List.length_replicate, List.length_singleton] at hlt
            omega
          rw [List.getElem?_append_left (by rw [List.length_append, List.length_replicate]; exact hlt),
            List.getElem?_append_right hge, List.getElem?_replicate, if_pos (by omega)] at hy
          cases hy
          rfl

theorem defined_nil : Defined ([] : Sparse α) := List.not_mem_nil

theorem Defined.push (h : xs.Defined) (a : α) : (xs.push a).Defined := by
  intro hm
  rcases List.mem_append.mp hm with hm | hm
  · exact h hm
  · cases List.mem_singleton.mp hm

theorem Defined.delete (h : xs.Defined) (i : Nat) : (xs.delete i).Defined := by
  intro hm
  rcases List.mem_or_eq_of_mem_set hm with hm | hm
  · exact h hm
  · cases hm

/-- Where no slot is undefined, what is present has a value. -/
theorem Defined.present_iff (h : xs.Defined) : xs.present i = true ↔ ∃ a, xs.get i = some a := by
  rw [present, get]
  cases hi : xs[i]? with
  | none => simp
  | some s =>
    cases s with
    | hole => simp [Slot.value?]
    | undefined => exact absurd (List.mem_of_getElem? hi) h
    | val a => simp [Slot.value?]

/-- A callback that leaves defined values alone changes nothing, if there is nothing else. -/
theorem Defined.forEach (h : xs.Defined) {f : Sparse α → Option α → Nat → Sparse α}
    (hf : ∀ a i, f xs (some a) i = xs) : xs.forEach f = xs := by
  rw [Sparse.forEach]
  generalize List.range xs.length = is
  induction is with
  | nil => rfl
  | cons i is ih =>
    rw [List.foldl_cons]
    by_cases hp : xs.present i = true
    · obtain ⟨a, ha⟩ := h.present_iff.mp hp
      rw [if_pos hp, ha, hf]
      exact ih
    · rw [if_neg hp]
      exact ih

/-- A `forEach` whose callback does one thing to each slot it is called with. -/
theorem forEach_eq_map {f : Sparse α → Option α → Nat → Sparse α} {g : Slot α → Slot α}
    (hole : g .hole = .hole)
    (hf : ∀ (ys : Sparse α) i s, s ≠ .hole → ys[i]? = some s → f ys s.value? i = ys.set i (g s)) :
    xs.forEach f = xs.map g := by
  -- before index `n` the slots in front of it are done, and the others are as they were
  have key : ∀ n ≤ xs.length,
      (List.range n).foldl (fun ys i => if ys.present i then f ys (ys.get i) i else ys) xs =
        (xs.take n).map g ++ xs.drop n := by
    intro n hn
    induction n with
    | zero => rfl
    | succ n ih =>
      rw [List.range_succ, List.foldl_append, ih (by omega), List.foldl_cons, List.foldl_nil]
      have hlen : ((xs.take n).map g).length = n := by
        rw [List.length_map, List.length_take]
        omega
      have hat : ((xs.take n).map g ++ xs.drop n)[n]? = some xs[n] := by
        rw [List.getElem?_append_right (by omega), hlen, Nat.sub_self, List.getElem?_drop,
          Nat.add_zero, List.getElem?_eq_getElem]
      have hset : ((xs.take n).map g ++ xs.drop n).set n (g xs[n]) =
          (xs.take (n + 1)).map g ++ xs.drop (n + 1) := by
        rw [List.set_append_right _ _ (by omega), hlen, Nat.sub_self, List.drop_eq_getElem_cons hn,
          List.set_cons_zero, List.take_succ_eq_append_getElem hn, List.map_append, List.append_assoc]
        rfl
      rw [← hset, present, get, hat, Option.bind_some]
      cases hs : xs[n] with
      | hole =>
        rw [hs] at hat
        obtain ⟨hlt, heq⟩ := List.getElem?_eq_some_iff.mp hat
        rw [hole, if_neg (by simp)]
        exact (List.set_getElem_self hlt).symm.trans (congrArg _ heq)
      | undefined => exact hf _ _ _ (by simp) (by rw [hat, hs])
      | val a => exact hf _ _ _ (by simp) (by rw [hat, hs])
  rw [forEach, key _ (Nat.le_refl _), List.take_length, List.drop_length, List.append_nil]

end

end Sparse

end Qtalk.Lib
