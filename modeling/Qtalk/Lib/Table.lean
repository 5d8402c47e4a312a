import Mathlib.Data.List.Basic
import Mathlib.Data.List.Perm.Basic
import Mathlib.Data.List.Induction
import Mathlib.Data.List.Nodup

/-!
# Tables with distinct keys

A table keeps its entries in the order their keys were first stored, as an object with
named properties does; a map whose iteration order is not fixed is the same table read in
any permutation of its entries. A search stops at the first entry that matches: over a
permutation the key alone decides which one that is (`find?_key`), over an ordered list it
is the least match (`find?_least`).
-/

namespace Qtalk.Lib

section First

variable {α : Type}

/-- In an ordered list a search finds the least match. -/
theorem find?_least {R : α → α → Prop} {l : List α} (hl : l.Pairwise R)
    (asymm : ∀ a b, R a b → ¬ R b a) (p : α → Bool) (x : α) :
    l.find? p = some x ↔ x ∈ l ∧ p x = true ∧ ∀ y ∈ l, R y x → p y = false := by
  induction l with
  | nil => simp
  | cons a l ih =>
    have after : ∀ y ∈ l, R a y := fun y hy => List.rel_of_pairwise_cons hl hy
    have rest := ih hl.of_cons
    by_cases hpa : p a = true
    · rw [List.find?_cons_of_pos hpa]
      constructor
      · intro h
        obtain rfl := Option.some.inj h
        refine ⟨List.mem_cons_self, hpa, fun y hy hyx => ?_⟩
        rcases List.mem_cons.mp hy with rfl | hy
        · exact absurd hyx (asymm _ _ hyx)
        · exact absurd hyx (asymm _ _ (after y hy))
      · rintro ⟨hx, hpx, least⟩
        rcases List.mem_cons.mp hx with rfl | hx
        · rfl
        · have := least a List.mem_cons_self (after x hx)
          rw [hpa] at this
          cases this
    · rw [List.find?_cons_of_neg hpa, rest]
      have hpa : p a = false := by simpa using hpa
      constructor
      · rintro ⟨hx, hpx, least⟩
        refine ⟨List.mem_cons_of_mem _ hx, hpx, fun y hy hyx => ?_⟩
        rcases List.mem_cons.mp hy with rfl | hy
        · exact hpa
        · exact least y hy hyx
      · rintro ⟨hx, hpx, least⟩
        rcases List.mem_cons.mp hx with rfl | hx
        · rw [hpa] at hpx
          cases hpx
        · exact ⟨hx, hpx, fun y hy => least y (List.mem_cons_of_mem _ hy)⟩

variable [DecidableEq α]

/-- Where `a` stands first in `l`. -/
def firstPlace (l : List α) (a : α) : Nat := l.idxOf a

/-- Dropping elements leaves the others in the order of their first places. -/
theorem firstPlace_filter_lt {p : α → Bool} {a b : α} (ha : p a = true) (hb : p b = true)
    (l : List α) :
    firstPlace (l.filter p) a < firstPlace (l.filter p) b ↔ firstPlace l a < firstPlace l b := by
  unfold firstPlace
  induction l with
  | nil => rfl
  | cons x l ih =>
    by_cases hx : p x = true
    · rw [List.filter_cons_of_pos hx]
      by_cases hxa : x = a
      · by_cases hxb : x = b
        · simp [← hxa, hxb]
        · rw [hxa, List.idxOf_cons_self, List.idxOf_cons_self, List.idxOf_cons_ne _ (hxa ▸ hxb),
            List.idxOf_cons_ne _ (hxa ▸ hxb)]
          simp
      · by_cases hxb : x = b
        · simp [hxb]
        · rw [List.idxOf_cons_ne _ hxa, List.idxOf_cons_ne _ hxa, List.idxOf_cons_ne _ hxb,
            List.idxOf_cons_ne _ hxb]
          omega
    · have hxa : x ≠ a := fun h => hx (h ▸ ha)
      have hxb : x ≠ b := fun h => hx (h ▸ hb)
      rw [List.filter_cons_of_neg hx, ih, List.idxOf_cons_ne _ hxa, List.idxOf_cons_ne _ hxb]
      omega

end First

/-- Entries under distinct keys, in the order the keys were first stored. -/
structure Table (κ ν : Type) where
  entries : List (κ × ν)
  distinct : (entries.map Prod.fst).Nodup

namespace Table

variable {κ ν : Type}

def empty : Table κ ν := ⟨[], List.nodup_nil⟩

def keys (t : Table κ ν) : List κ := t.entries.map Prod.fst

variable [DecidableEq κ]

/-- Store `v` under `k`: in its place if there is one, else at the end. -/
def put (k : κ) (v : ν) : List (κ × ν) → List (κ × ν)
  | [] => [(k, v)]
  | e :: l => if e.1 = k then (k, v) :: l else e :: put k v l

theorem keys_put (k : κ) (v : ν) (l : List (κ × ν)) :
    (put k v l).map Prod.fst =
      if k ∈ l.map Prod.fst then l.map Prod.fst else l.map Prod.fst ++ [k] := by
  induction l with
  | nil => rfl
  | cons e l ih =>
    unfold put
    by_cases he : e.1 = k
    · simp [he]
    · rw [if_neg he, List.map_cons, ih]
      by_cases hk : k ∈ l.map Prod.fst
      · have : k ∈ (e :: l).map Prod.fst := List.mem_cons_of_mem _ hk
        rw [if_pos hk, if_pos this, List.map_cons]
      · have : k ∉ (e :: l).map Prod.fst := by
          rw [List.map_cons, List.mem_cons, not_or]
          exact ⟨fun h => he h.symm, hk⟩
        rw [if_neg hk, if_neg this, List.map_cons, List.cons_append]

theorem lookup_cons_if (k : κ) (e : κ × ν) (l : List (κ × ν)) :
    (e :: l).lookup k = if k = e.1 then some e.2 else l.lookup k := by
  obtain ⟨k', v⟩ := e
  by_cases h : k = k'
  · simp [h]
  · rw [List.lookup_cons, beq_false_of_ne h, if_neg h]

theorem lookup_put (k k' : κ) (v : ν) (l : List (κ × ν)) :
    (put k v l).lookup k' = if k' = k then some v else l.lookup k' := by
  induction l with
  | nil => rw [put, lookup_cons_if]
  | cons e l ih =>
    unfold put
    by_cases he : e.1 = k
    · rw [if_pos he, lookup_cons_if, lookup_cons_if, he]
      by_cases h : k' = k <;> simp [h]
    · rw [if_neg he, lookup_cons_if, lookup_cons_if, ih]
      by_cases h : k' = k
      · have : k ≠ e.1 := fun h' => he h'.symm
        simp [h, this]
      · simp [h]

theorem put_distinct {k : κ} {v : ν} {l : List (κ × ν)} (hl : (l.map Prod.fst).Nodup) :
    ((put k v l).map Prod.fst).Nodup := by
  rw [keys_put]
  split
  · exact hl
  · next hk =>
    refine List.nodup_append.mpr ⟨hl, List.nodup_singleton k, fun a ha b hb hab => ?_⟩
    rw [List.mem_singleton] at hb
    exact hk (hb ▸ hab ▸ ha)

def set (t : Table κ ν) (k : κ) (v : ν) : Table κ ν := ⟨put k v t.entries, put_distinct t.distinct⟩

def get? (t : Table κ ν) (k : κ) : Option ν := t.entries.lookup k

@[simp] theorem get?_empty (k : κ) : (empty : Table κ ν).get? k = none := rfl

theorem get?_set (t : Table κ ν) (k k' : κ) (v : ν) :
    (t.set k v).get? k' = if k' = k then some v else t.get? k' :=
  lookup_put k k' v t.entries

theorem keys_set (t : Table κ ν) (k : κ) (v : ν) :
    (t.set k v).keys = if k ∈ t.keys then t.keys else t.keys ++ [k] :=
  keys_put k v t.entries

theorem mem_entries {t : Table κ ν} {k : κ} {v : ν} : (k, v) ∈ t.entries ↔ t.get? k = some v := by
  obtain ⟨l, hl⟩ := t
  unfold get?
  induction l with
  | nil => simp
  | cons e l ih =>
    rw [List.map_cons, List.nodup_cons] at hl
    have rest := ih hl.2
    rw [List.mem_cons, lookup_cons_if]
    by_cases he : k = e.1
    · have absent : (k, v) ∉ l := fun h => hl.1 (he ▸ List.mem_map_of_mem h)
      rw [if_pos he, or_iff_left absent, Option.some.injEq]
      constructor
      · intro h
        rw [← h]
      · intro h
        rw [he, ← h]
    · have : (k, v) ≠ e := fun h => he (congrArg Prod.fst h)
      rw [if_neg he, or_iff_right this]
      exact rest

/-- Whatever the order of the entries, a search by key finds what is stored under it. -/
theorem find?_key {t : Table κ ν} {order : List (κ × ν)} (ho : order.Perm t.entries) (k : κ)
    {p : κ × ν → Bool} (hp : ∀ e ∈ t.entries, p e = true ↔ e.1 = k) :
    order.find? p = (t.get? k).map (k, ·) := by
  cases hf : order.find? p with
  | none =>
    have none_at : t.get? k = none := by
      cases hg : t.get? k with
      | none => rfl
      | some v =>
        have he := mem_entries.mpr hg
        have := List.find?_eq_none.mp hf _ (ho.mem_iff.mpr he)
        exact absurd ((hp _ he).mpr rfl) this
    rw [none_at, Option.map_none]
  | some e =>
    have he := ho.mem_iff.mp (List.mem_of_find?_eq_some hf)
    have hk : e.1 = k := (hp e he).mp (List.find?_some hf)
    have hg : t.get? k = some e.2 := mem_entries.mp (hk ▸ he)
    rw [hg, Option.map_some, ← hk]

/-- The table without an entry under `k`. -/
def erase (t : Table κ ν) (k : κ) : Table κ ν :=
  ⟨t.entries.filter (fun e => e.1 ≠ k), t.distinct.sublist (List.filter_sublist.map Prod.fst)⟩

theorem lookup_filter_ne (k k' : κ) (l : List (κ × ν)) :
    (l.filter fun e => e.1 ≠ k).lookup k' = if k' = k then none else l.lookup k' := by
  induction l with
  | nil => exact (ite_self none).symm
  | cons e l ih =>
    by_cases he : e.1 = k
    · rw [List.filter_cons_of_neg (by simpa using he), ih, lookup_cons_if, he]
      split <;> rfl
    · rw [List.filter_cons_of_pos (by simpa using he), lookup_cons_if, lookup_cons_if, ih]
      by_cases hk : k' = e.1
      · rw [if_pos hk, if_pos hk, if_neg fun h => he (hk.symm.trans h)]
      · rw [if_neg hk, if_neg hk]

theorem get?_erase (t : Table κ ν) (k k' : κ) :
    (t.erase k).get? k' = if k' = k then none else t.get? k' :=
  lookup_filter_ne k k' t.entries

/-- The entries stored one after the other. -/
def stored (t : Table κ ν) (l : List (κ × ν)) : Table κ ν := l.foldl (fun t e => t.set e.1 e.2) t

/-- The value of the last entry under `k`. -/
def last (l : List (κ × ν)) (k : κ) : Option ν := l.reverse.lookup k

/-- A table holds what was stored last under each key. -/
theorem get?_stored (t : Table κ ν) (l : List (κ × ν)) (k : κ) :
    (t.stored l).get? k = (last l k).or (t.get? k) := by
  unfold last
  induction l generalizing t with
  | nil => rfl
  | cons e l ih =>
    have := ih (t.set e.1 e.2)
    unfold stored at this ⊢
    rw [List.foldl_cons, this, get?_set, List.reverse_cons, List.lookup_append]
    rw [lookup_cons_if, List.lookup_nil]
    by_cases hk : k = e.1
    · cases l.reverse.lookup k <;> simp [hk]
    · cases l.reverse.lookup k <;> simp [hk]

theorem last_isSome {l : List (κ × ν)} {k : κ} : (last l k).isSome ↔ k ∈ l.map Prod.fst := by
  unfold last
  rw [List.lookup_isSome_iff, List.mem_map]
  simp only [List.mem_reverse, beq_iff_eq, eq_comm (a := k)]

/-- The keys stand in the order in which they were first stored. -/
theorem keys_stored (l : List (κ × ν)) :
    ((empty : Table κ ν).stored l).keys.Pairwise
        (fun a b => firstPlace (l.map Prod.fst) a < firstPlace (l.map Prod.fst) b) ∧
      ∀ k, k ∈ ((empty : Table κ ν).stored l).keys ↔ k ∈ l.map Prod.fst := by
  unfold firstPlace
  induction l using List.reverseRecOn with
  | nil => exact ⟨List.Pairwise.nil, fun k => Iff.rfl⟩
  | append_singleton l e ih =>
    obtain ⟨sorted, mem⟩ := ih
    have last : ((empty : Table κ ν).stored (l ++ [e])) = (empty.stored l).set e.1 e.2 := by
      simp [stored]
    have before : (empty.stored l).keys.Pairwise (fun a b =>
        ((l ++ [e]).map Prod.fst).idxOf a < ((l ++ [e]).map Prod.fst).idxOf b) := by
      refine sorted.imp_of_mem fun ha hb hab => ?_
      rw [List.map_append, List.idxOf_append_of_mem ((mem _).mp ha),
        List.idxOf_append_of_mem ((mem _).mp hb)]
      exact hab
    rw [last, keys_set]
    split
    · next hk =>
      refine ⟨before, fun k => ?_⟩
      rw [mem, List.map_append, List.mem_append]
      constructor
      · exact Or.inl
      · rintro (h | h)
        · exact h
        · rw [List.map_singleton, List.mem_singleton] at h
          rw [h]
          exact (mem _).mp hk
    · next hk =>
      have fresh : e.1 ∉ l.map Prod.fst := fun h => hk ((mem _).mpr h)
      constructor
      · refine List.pairwise_append.mpr ⟨before, List.pairwise_singleton _ _, fun a ha b hb => ?_⟩
        obtain rfl := List.mem_singleton.mp hb
        rw [List.map_append, List.idxOf_append_of_mem ((mem _).mp ha),
          List.idxOf_append_of_notMem fresh]
        have := List.idxOf_lt_length_of_mem ((mem _).mp ha)
        omega
      · intro k
        simp [mem]

end Table

end Qtalk.Lib
