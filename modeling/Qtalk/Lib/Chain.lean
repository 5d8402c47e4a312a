/-!
# Chains of cells

A heap of cells that each hold a value and a pointer to another cell or nil. Allocation
appends to the heap, so a cell linked behind another has the larger address; that keeps a
chain free of cycles and lets an update of one cell leave the cells behind it alone.
-/

namespace Qtalk.Lib

structure Cell (α : Type) where
  val : α
  /-- `none` is nil -/
  next : Option Nat := none
  deriving DecidableEq, Repr

variable {α : Type}

/-- From the cell at `p` the pointers lead over cells with these values to the last, at `t`. -/
inductive Chain (heap : List (Cell α)) : Nat → List α → Nat → Prop where
  | last {p : Nat} {v : α} (h : heap[p]? = some { val := v }) : Chain heap p [v] p
  | link {p q t : Nat} {v : α} {vs : List α} (h : heap[p]? = some { val := v, next := some q })
      (lt : p < q) (rest : Chain heap q vs t) : Chain heap p (v :: vs) t

namespace Chain

variable {heap heap' : List (Cell α)} {p t : Nat} {v w : α} {vs : List α}

/-- The addresses of a chain go up. -/
theorem length_le (h : Chain heap p vs t) : p + vs.length ≤ t + 1 := by
  induction h with
  | last _ => simp
  | link _ lt _ ih =>
    rw [List.length_cons]
    omega

theorem lt_length (h : Chain heap p vs t) : t < heap.length := by
  induction h with
  | last h => exact (List.getElem?_eq_some_iff.mp h).1
  | link _ _ _ ih => exact ih

theorem ne_nil (h : Chain heap p vs t) : vs ≠ [] := by
  cases h <;> simp

/-- A chain does not depend on the cells in front of it. -/
theorem congr (h : Chain heap p vs t) (same : ∀ a, p ≤ a → heap'[a]? = heap[a]?) :
    Chain heap' p vs t := by
  induction h with
  | last h => exact .last ((same _ (Nat.le_refl _)).trans h)
  | link h lt _ ih =>
    refine .link ((same _ (Nat.le_refl _)).trans h) lt (ih fun a ha => same a ?_)
    omega

/-- The first cell. -/
theorem head (h : Chain heap p (v :: vs) t) : ∃ next, heap[p]? = some { val := v, next } := by
  cases h with
  | last h => exact ⟨none, h⟩
  | link h _ _ => exact ⟨some _, h⟩

/-- The first cell takes another value. -/
theorem set {next : Option Nat} (h : Chain heap p (v :: vs) t)
    (hp : heap[p]? = some { val := v, next }) : Chain (heap.set p { val := w, next }) p (w :: vs) t := by
  obtain ⟨hlt, -⟩ := List.getElem?_eq_some_iff.mp hp
  have hself : (heap.set p { val := w, next })[p]? = some { val := w, next } := List.getElem?_set_self hlt
  cases h with
  | last h =>
    rw [hp] at h
    cases h
    exact .last hself
  | link h lt rest =>
    rw [hp] at h
    cases h
    refine .link hself lt (rest.congr fun a ha => List.getElem?_set_ne ?_)
    omega

/-- The pointer of a cell that is not the last. -/
theorem advance (h : Chain heap p (v :: vs) t) (hne : p ≠ t) :
    ∃ q, heap[p]? = some { val := v, next := some q } ∧ Chain heap q vs t := by
  cases h with
  | last _ => exact absurd rfl hne
  | link h _ rest => exact ⟨_, h, rest⟩

theorem single (h : Chain heap t vs t) : ∃ v, vs = [v] := by
  have := h.length_le
  cases h with
  | last _ => exact ⟨_, rfl⟩
  | link _ lt rest =>
    have := rest.length_le
    have := List.length_pos_iff.mpr rest.ne_nil
    omega

/-- A new cell is linked behind the last. -/
theorem append (h : Chain heap p vs t) {last : Cell α} (ht : heap[t]? = some last) (w : α) :
    Chain (heap.set t { last with next := some heap.length } ++ [{ val := w }]) p (vs ++ [w])
      heap.length := by
  obtain ⟨htl, -⟩ := List.getElem?_eq_some_iff.mp ht
  have hold : ∀ a, a < heap.length →
      (heap.set t { last with next := some heap.length } ++ [{ val := w }])[a]? =
        (heap.set t { last with next := some heap.length })[a]? := fun a ha =>
    List.getElem?_append_left (by rwa [List.length_set])
  have hnew : (heap.set t { last with next := some heap.length } ++ [{ val := w }])[heap.length]? =
      some { val := w } := by
    rw [List.getElem?_append_right (Nat.le_of_eq List.length_set), List.length_set, Nat.sub_self]
    rfl
  induction h with
  | last h =>
    rw [ht] at h
    cases h
    refine .link ?_ htl (.last hnew)
    rw [hold _ htl, List.getElem?_set_self htl]
  | @link p q t v vs h lt rest ih =>
    have hle := rest.length_le
    have hpos := List.length_pos_iff.mpr rest.ne_nil
    refine .link ?_ lt (ih ht htl hold hnew)
    rw [hold _ (by omega), List.getElem?_set_ne (by omega), h]

end Chain

end Qtalk.Lib
