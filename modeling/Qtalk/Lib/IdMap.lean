import Mathlib.Data.Set.List

/-!
# Maps that give out the ids

A map from ids to values in which a value is added under the smallest id that is free. What it
holds is said by its history: under an id, what was added last, unless it was removed or dropped
since. A list of slots with holes is such a map, the ids being the indices.
-/

namespace Qtalk.Lib

/-- Something that happened to a map. -/
inductive Entry (ι α : Type) where
  | added (id : ι) (a : α)
  | removed (id : ι)
  | dropped
  deriving DecidableEq, Repr

section
variable {ι κ α : Type}

/-- What is held under an id after a history, whose latest entry comes first. -/
def held [DecidableEq ι] : List (Entry ι α) → ι → Option α
  | [], _ => none
  | .added id a :: log, i => if i = id then some a else held log i
  | .removed id :: log, i => if i = id then none else held log i
  | .dropped :: _, _ => none

/-- Nothing is held under the id, and something under every smaller one. -/
def LeastFree [LT ι] (m : ι → Option α) (id : ι) : Prop := m id = none ∧ ∀ i < id, m i ≠ none

/-- The values are those held, one for each id, by the ids. -/
def InOrder [LT ι] (m : ι → Option α) (as : List α) : Prop :=
  ∃ ids : List ι, ids.Pairwise (· < ·) ∧ (∀ i, i ∈ ids ↔ (m i).isSome) ∧ as.map some = ids.map m

/-- The ids of another type stand for some of these, and for all that are in use. -/
theorem InOrder.comap [LT ι] [LT κ] {m : ι → Option α} {as : List α} (h : InOrder m as) {f : κ → ι}
    (hinj : Function.Injective f) (hlt : ∀ k l, f k < f l → k < l)
    (hused : ∀ i, (m i).isSome → ∃ k, f k = i) : InOrder (fun k => m (f k)) as := by
  obtain ⟨ids, hpair, hmem, hmap⟩ := h
  obtain ⟨ks, rfl⟩ : ∃ ks, List.map f ks = ids := by
    have hrange : ids ∈ Set.range (List.map f) := by
      rw [Set.range_list_map]
      exact fun i hi => hused i ((hmem i).mp hi)
    exact hrange
  refine ⟨ks, ?_, fun k => ?_, ?_⟩
  · rw [List.pairwise_map] at hpair
    exact hpair.imp fun h => hlt _ _ h
  · rw [← hmem (f k), List.mem_map]
    constructor
    · exact fun hk => ⟨k, hk, rfl⟩
    · rintro ⟨l, hl, heq⟩
      rwa [← hinj heq]
  · rw [hmap, List.map_map]
    rfl

/-! ## Slots with holes -/

/-- The first hole, or else the end, is the smallest free index. -/
theorem leastFree_findIdx (slots : List (Option α)) :
    LeastFree (fun i : Nat => slots[i]?.join) (slots.findIdx Option.isNone) := by
  constructor
  · dsimp only
    rcases Nat.lt_or_ge (slots.findIdx Option.isNone) slots.length with hlt | hge
    · have hnone : slots[slots.findIdx Option.isNone].isNone = true := List.findIdx_getElem
      rw [List.getElem?_eq_getElem hlt]
      exact Option.isNone_iff_eq_none.mp hnone
    · rw [List.getElem?_eq_none hge]
      rfl
  · intro i hi
    have hlt : i < slots.length := Nat.lt_of_lt_of_le hi List.findIdx_le_length
    have hsome : slots[i].isNone = false := List.not_of_lt_findIdx hi
    have hnone : slots[i] ≠ none := fun hnone => by
      rw [hnone] at hsome
      cases hsome
    dsimp only
    rw [List.getElem?_eq_getElem hlt]
    exact hnone

theorem map_filterMap_some (f : κ → Option α) (ks : List κ) :
    (ks.filterMap f).map some = (ks.filter fun k => (f k).isSome).map f := by
  induction ks with
  | nil => rfl
  | cons k ks ih =>
    cases hk : f k with
    | none =>
      rw [List.filterMap_cons_none hk, List.filter_cons_of_neg (by simp [hk])]
      exact ih
    | some a =>
      rw [List.filterMap_cons_some hk, List.filter_cons_of_pos (by simp [hk]), List.map_cons,
        List.map_cons, hk, ih]

/-- The values in the slots, without the holes. -/
theorem inOrder_filterMap (slots : List (Option α)) :
    InOrder (fun i : Nat => slots[i]?.join) (slots.filterMap id) := by
  refine ⟨(List.range slots.length).filter fun i : Nat => (slots[i]?.join).isSome, ?_, fun i => ?_, ?_⟩
  · exact List.pairwise_lt_range.filter _
  · rw [List.mem_filter, List.mem_range]
    refine and_iff_right_of_imp fun hsome => ?_
    by_contra hge
    rw [List.getElem?_eq_none (Nat.le_of_not_lt hge)] at hsome
    cases hsome
  · have hslots : slots = (List.range slots.length).map fun i => slots[i]?.join := by
      apply List.ext_getElem
      · rw [List.length_map, List.length_range]
      · intro i hi hi'
        rw [List.getElem_map, List.getElem_range, List.getElem?_eq_getElem hi]
        rfl
    rw [← map_filterMap_some]
    conv_lhs => rw [hslots]
    rw [List.filterMap_map]
    rfl

end

end Qtalk.Lib
