import Qtalk.Lib.Runs
import Qtalk.Lib.Sparse

/-!
# The table of channels of the legacy session

`newChannel`, `getCh`, `addCh` and `rmCh` of `javascript/legacy/qmux/src/qmux.ts` on the array
`channels`. Here `rmCh` sets a slot to undefined, and those slots `forEach` does visit: `addCh` puts
the channel into each of them, for the `return i` returns from the callback alone, and then behind
the last one too.
-/

namespace Qtalk.Legacy
open Qtalk.Lib

/-- The array `channels`, its property `4294967295`, and the field `localId` of every channel made,
by the channel's number; a field that was never assigned is undefined. -/
structure ChannelTable where
  localIds : List (Option Nat) := []
  channels : Sparse Nat := []
  past : Option Nat := none
  deriving DecidableEq, Repr

namespace ChannelTable

/-- `this.channels[id]`. -/
def slot (t : ChannelTable) (id : Nat) : Option Nat :=
  if id < maxLength then t.channels.get id else if id = maxLength then t.past else none

/-- `getCh`: the channel, and whether "bad ids" is logged. It throws on `ch.localId` where there is
no channel. -/
def getCh (t : ChannelTable) (id : Nat) : Option (Nat × Bool) :=
  (t.slot id).map fun ch => (ch, t.localIds[ch]? ≠ some (some id))

/-- `addCh`: nothing is returned where `push` throws, which it does behind the last index, having
set the property. -/
def addCh (t : ChannelTable) (ch : Nat) : ChannelTable × Option Nat :=
  let channels := t.channels.forEach fun channels v i =>
    if v = none then channels.assign i (.val ch) else channels
  if channels.length < maxLength then
    let channels := channels.push ch
    ({ t with channels }, some (channels.length - 1))
  else
    ({ t with channels, past := some ch }, none)

/-- `newChannel`: the field `localId` is undefined until `addCh` returns. -/
def newChannel (t : ChannelTable) : ChannelTable :=
  let ch := t.localIds.length
  match { t with localIds := t.localIds ++ [none] }.addCh ch with
  | (t, some id) => { t with localIds := t.localIds.set ch (some id) }
  | (t, none) => t

/-- `rmCh`; a number that is no index names a property. -/
def rmCh (t : ChannelTable) (id : Nat) : ChannelTable :=
  if id < maxLength then { t with channels := t.channels.assign id .undefined }
  else if id = maxLength then { t with past := none } else t

inductive Op where
  | newChannel
  | rmCh (id : Nat)
  deriving DecidableEq, Repr

def step (t : ChannelTable) : Op → ChannelTable
  | .newChannel => t.newChannel
  | .rmCh id => t.rmCh id

/-- What the slots hold, and whom a packet goes to. -/
structure Kept (t : ChannelTable) : Prop where
  ids : ∀ i ch, t.slot i = some ch → t.localIds[ch]? = some (some i)
  once : ∀ i j ch, t.slot i = some ch → t.slot j = some ch → i = j
  handled : ∀ id ch bad, t.getCh id = some (ch, bad) →
    t.localIds[ch]? = some (some id) ∧ bad = false

/-- The second and third part come with the first. -/
theorem Kept.of_ids {t : ChannelTable}
    (h : ∀ i ch, t.slot i = some ch → t.localIds[ch]? = some (some i)) : t.Kept := by
  refine ⟨h, fun i j ch hi hj => ?_, fun id ch bad hg => ?_⟩
  · exact Option.some.inj (Option.some.inj ((h i ch hi).symm.trans (h j ch hj)))
  · obtain ⟨ch', hslot, heq⟩ := Option.map_eq_some_iff.mp hg
    cases heq
    exact ⟨h id ch hslot, by simp [h id ch hslot]⟩

/-! ## What the operations do -/

/-- The loop of `addCh` fills every undefined slot. -/
theorem forEach_fill (xs : Sparse Nat) (ch : Nat) :
    (xs.forEach fun channels v i => if v = none then channels.assign i (.val ch) else channels) =
      xs.map (Slot.fill ch) := by
  refine Sparse.forEach_eq_map rfl fun ys i s hne hs => ?_
  obtain ⟨hlt, heq⟩ := List.getElem?_eq_some_iff.mp hs
  cases s with
  | hole => exact absurd rfl hne
  | undefined =>
    show (if (none : Option Nat) = none then ys.assign i (.val ch) else ys) = _
    rw [if_pos rfl, Sparse.assign, if_pos hlt]
    rfl
  | val a =>
    rw [if_neg (by simp [Slot.value?])]
    exact (List.set_getElem_self hlt).symm.trans (congrArg _ heq)

variable {t : ChannelTable}

theorem newChannel_of_lt (h : t.channels.length < maxLength) : t.newChannel = { t with
    localIds := t.localIds ++ [some t.channels.length]
    channels := Sparse.push (t.channels.map (Slot.fill t.localIds.length)) t.localIds.length } := by
  have hadd : addCh { t with localIds := t.localIds ++ [none] } t.localIds.length =
      ({ t with
        localIds := t.localIds ++ [none]
        channels := Sparse.push (t.channels.map (Slot.fill t.localIds.length)) t.localIds.length },
        some t.channels.length) := by
    rw [addCh, forEach_fill, if_pos (by rw [List.length_map]; exact h)]
    dsimp only
    rw [Sparse.push, List.length_append, List.length_map, List.length_singleton, Nat.add_sub_cancel]
  rw [newChannel, hadd]
  dsimp only
  rw [List.set_append_right _ _ (Nat.le_refl _), Nat.sub_self]
  rfl

theorem newChannel_of_full (h : ¬ t.channels.length < maxLength) : t.newChannel = { t with
    localIds := t.localIds ++ [none]
    channels := t.channels.map (Slot.fill t.localIds.length)
    past := some t.localIds.length } := by
  have hadd : addCh { t with localIds := t.localIds ++ [none] } t.localIds.length =
      ({ localIds := t.localIds ++ [none]
         channels := t.channels.map (Slot.fill t.localIds.length)
         past := some t.localIds.length }, none) := by
    rw [addCh, forEach_fill, if_neg (by rw [List.length_map]; exact h)]
  rw [newChannel, hadd]

theorem slot_rmCh (t : ChannelTable) (id i : Nat) :
    (t.rmCh id).slot i = if i = id then none else t.slot i := by
  rw [rmCh]
  by_cases hid : id < maxLength
  · rw [if_pos hid, slot, slot, Sparse.get_assign]
    by_cases hi : i < maxLength
    · rw [if_pos hi, if_pos hi]
      rfl
    · rw [if_neg hi, if_neg hi, if_neg (by omega : ¬ i = id)]
  · rw [if_neg hid]
    by_cases heq : i = id
    · subst heq
      rw [if_pos rfl]
      split
      · next hm => rw [slot, if_neg hid, if_pos hm]
      · next hm => rw [slot, if_neg hid, if_neg hm]
    · rw [if_neg heq]
      split
      · next hm =>
        rw [slot, slot, if_neg (by omega : ¬ i = maxLength), if_neg (by omega : ¬ i = maxLength)]
      · rfl

/-- Removal keeps what stands in the other slots. -/
theorem Kept.rmCh (h : t.Kept) (id : Nat) : (t.rmCh id).Kept := by
  refine Kept.of_ids fun i ch hi => ?_
  have hids : (t.rmCh id).localIds = t.localIds := by
    rw [ChannelTable.rmCh]
    split
    · rfl
    · split <;> rfl
  rw [slot_rmCh] at hi
  split at hi
  · cases hi
  · rw [hids]
    exact h.ids i ch hi

/-! ## Tables nothing was removed from -/

/-- `n` channels stand in the order they were made. -/
structure Packed (n : Nat) (t : ChannelTable) : Prop where
  le : n ≤ maxLength
  localIds : t.localIds = (List.range n).map some
  channels : t.channels = (List.range n).map .val
  past : t.past = none

namespace Packed

variable {n : Nat}

theorem length (h : t.Packed n) : t.channels.length = n := by
  rw [h.channels, List.length_map, List.length_range]

theorem slot_eq (h : t.Packed n) (i : Nat) : t.slot i = if i < n then some i else none := by
  have hle := h.le
  rw [slot, h.past, ite_self, h.channels, Sparse.get, List.getElem?_map]
  by_cases hi : i < n
  · rw [if_pos (by omega), if_pos hi, List.getElem?_range hi]
    rfl
  · rw [if_neg hi, List.getElem?_eq_none (by rw [List.length_range]; omega)]
    exact ite_self none

theorem kept (h : t.Packed n) : t.Kept := by
  refine Kept.of_ids fun i ch hi => ?_
  rw [h.slot_eq] at hi
  split at hi
  · next hlt =>
    cases hi
    rw [h.localIds, List.getElem?_map, List.getElem?_range hlt]
    rfl
  · cases hi

/-- There is nothing to fill. -/
theorem map_fill (h : t.Packed n) (ch : Nat) : t.channels.map (Slot.fill ch) = t.channels := by
  rw [h.channels, List.map_map]
  rfl

theorem newChannel (h : t.Packed n) (hlt : n < maxLength) : t.newChannel.Packed (n + 1) := by
  have hlen : t.localIds.length = n := by rw [h.localIds, List.length_map, List.length_range]
  rw [newChannel_of_lt (by rw [h.length]; exact hlt), h.map_fill, hlen, h.length]
  refine ⟨hlt, ?_, ?_, h.past⟩
  · rw [h.localIds, List.range_succ, List.map_append]
    rfl
  · rw [Sparse.push, h.channels, List.range_succ, List.map_append]
    rfl

/-- A number that is no index removes nothing. -/
theorem rmCh (h : t.Packed n) {id : Nat} (hid : ¬ id < maxLength) : t.rmCh id = t := by
  rw [ChannelTable.rmCh, if_neg hid]
  split
  · rw [← h.past]
  · rfl

/-- The channel behind the last index has no id. -/
theorem not_kept (h : t.Packed maxLength) : ¬ t.newChannel.Kept := by
  intro hk
  rw [newChannel_of_full (by rw [h.length]; exact Nat.lt_irrefl _)] at hk
  have hid := hk.ids maxLength t.localIds.length
    (by rw [slot, if_neg (Nat.lt_irrefl _), if_pos rfl])
  rw [List.getElem?_concat_length] at hid
  cases hid

end Packed

/-! ## Tables something was removed from -/

/-- A slot is undefined. -/
structure Punched (t : ChannelTable) : Prop where
  le : t.channels.length ≤ maxLength
  undef : ∃ i : Nat, t.channels[i]? = some Slot.undefined

theorem Punched.of_rmCh (h : t.channels.length ≤ maxLength) {id : Nat} (hid : id < maxLength) :
    (t.rmCh id).Punched := by
  rw [rmCh, if_pos hid]
  refine ⟨?_, id, Sparse.getElem?_assign_self _ _ _⟩
  rw [Sparse.length_assign]
  exact Nat.max_le.mpr ⟨h, hid⟩

theorem Punched.rmCh (h : t.Punched) (id : Nat) : (t.rmCh id).Punched := by
  by_cases hid : id < maxLength
  · exact .of_rmCh h.le hid
  · rw [ChannelTable.rmCh, if_neg hid]
    split
    · exact ⟨h.le, h.undef⟩
    · exact h

/-- The next channel fills the slot that was undefined, and it gets another id or none. -/
theorem Punched.not_kept (h : t.Punched) : ¬ t.newChannel.Kept := by
  intro hk
  obtain ⟨i, hi⟩ := h.undef
  obtain ⟨hlt, -⟩ := List.getElem?_eq_some_iff.mp hi
  have hle := h.le
  have hfill : (t.channels.map (Slot.fill t.localIds.length))[i]? = some (.val t.localIds.length) := by
    rw [List.getElem?_map, hi]
    rfl
  by_cases hroom : t.channels.length < maxLength
  · rw [newChannel_of_lt hroom] at hk
    have hid := hk.ids i t.localIds.length (by
      rw [slot, if_pos (by omega), Sparse.get_push,
        if_neg (by rw [List.length_map]; omega), Sparse.get, hfill]
      rfl)
    rw [List.getElem?_concat_length, Option.some.injEq, Option.some.injEq] at hid
    omega
  · rw [newChannel_of_full hroom] at hk
    have hid := hk.ids i t.localIds.length (by
      rw [slot, if_pos (by omega), Sparse.get, hfill]
      rfl)
    rw [List.getElem?_concat_length] at hid
    cases hid

theorem Punched.no_more (h : t.Punched) {ops : List Op} (hk : Throughout step Kept t ops) :
    .newChannel ∉ ops := by
  induction ops generalizing t with
  | nil => exact List.not_mem_nil
  | cons op ops ih =>
    obtain ⟨-, hk⟩ := throughout_cons.mp hk
    cases op with
    | newChannel => exact absurd (hk 0) h.not_kept
    | rmCh id =>
      intro hm
      rcases List.mem_cons.mp hm with heq | hm
      · cases heq
      · exact ih (h.rmCh id) hk hm

/-! ## Runs -/

/-- A removal that leaves an undefined slot. -/
def Op.clears : Op → Bool
  | .newChannel => false
  | .rmCh id => id < maxLength

/-- No channel is added behind a removal, and there are not more than an array has slots for. -/
structure Fit (n : Nat) (ops : List Op) : Prop where
  order : ops.Pairwise fun a b => ¬ (a.clears = true ∧ b = .newChannel)
  count : n + ops.count .newChannel ≤ maxLength

theorem Packed.throughout {n : Nat} {ops : List Op} (h : t.Packed n) (hfit : Fit n ops) :
    Throughout step Kept t ops := by
  induction ops generalizing n t with
  | nil => exact throughout_nil.mpr h.kept
  | cons op ops ih =>
    obtain ⟨horder, hcount⟩ := hfit
    obtain ⟨hhead, htail⟩ := List.pairwise_cons.mp horder
    refine throughout_cons.mpr ⟨h.kept, ?_⟩
    cases op with
    | newChannel =>
      rw [List.count_cons_self] at hcount
      exact ih (h.newChannel (by omega)) ⟨htail, by omega⟩
    | rmCh id =>
      rw [List.count_cons_of_ne (by simp)] at hcount
      by_cases hid : id < maxLength
      · -- from here on channels are removed only
        refine Throughout.of_invariant (fun s hs => hs) (fun s op hop hs => ?_) (h.kept.rmCh id)
        cases op with
        | newChannel => exact absurd ⟨by simpa [Op.clears] using hid, rfl⟩ (hhead _ hop)
        | rmCh id' => exact hs.rmCh id'
      · rw [step, h.rmCh hid]
        exact ih h ⟨htail, hcount⟩

theorem Packed.fit {n : Nat} {ops : List Op} (h : t.Packed n) (hk : Throughout step Kept t ops) :
    Fit n ops := by
  induction ops generalizing n t with
  | nil => exact ⟨.nil, h.le⟩
  | cons op ops ih =>
    obtain ⟨-, hk⟩ := throughout_cons.mp hk
    cases op with
    | newChannel =>
      rcases Nat.lt_or_eq_of_le h.le with hlt | rfl
      · obtain ⟨horder, hcount⟩ := ih (h.newChannel hlt) hk
        refine ⟨List.pairwise_cons.mpr ⟨fun b _ hb => ?_, horder⟩, ?_⟩
        · cases hb.1
        · rw [List.count_cons_self]
          omega
      · exact absurd (hk 0) h.not_kept
    | rmCh id =>
      by_cases hid : id < maxLength
      · have hno := (Punched.of_rmCh (by rw [h.length]; exact h.le) hid).no_more hk
        refine ⟨List.pairwise_cons.mpr ⟨fun b hb hc => hno (hc.2 ▸ hb), ?_⟩, ?_⟩
        · exact List.pairwise_of_forall_mem_list fun a _ b hb hc => hno (hc.2 ▸ hb)
        · rw [List.count_cons_of_ne (by simp), List.count_eq_zero.mpr hno]
          exact h.le
      · rw [step, h.rmCh hid] at hk
        obtain ⟨horder, hcount⟩ := ih h hk
        refine ⟨List.pairwise_cons.mpr ⟨fun b _ hb => hid ?_, horder⟩, ?_⟩
        · simpa [Op.clears] using hb.1
        · rw [List.count_cons_of_ne (by simp)]
          exact hcount

theorem packed_nil : Packed 0 {} := ⟨Nat.zero_le _, rfl, rfl, rfl⟩

/-- The table is kept in every state of a run exactly if no channel is added behind a removal, and
at most `2 ^ 32 - 1` are. -/
theorem kept_iff (ops : List Op) :
    Throughout step Kept {} ops ↔
      (ops.Pairwise fun a b => ¬ (a.clears = true ∧ b = .newChannel)) ∧
        ops.count .newChannel ≤ maxLength := by
  constructor
  · intro h
    obtain ⟨horder, hcount⟩ := packed_nil.fit h
    exact ⟨horder, by rwa [Nat.zero_add] at hcount⟩
  · rintro ⟨horder, hcount⟩
    exact packed_nil.throughout ⟨horder, by rwa [Nat.zero_add]⟩

/-- One channel is made and removed. The next one stands in its slot and behind it, under the id 1,
and a packet for the id 0 goes to it. -/
theorem refill_doubles :
    let t := [Op.newChannel, .rmCh 0, .newChannel].foldl step {}
    t.slot 0 = some 1 ∧ t.slot 1 = some 1 ∧ t.localIds[1]? = some (some 1) ∧
      t.getCh 0 = some (1, true) ∧
      ¬ ∀ ops, Throughout step Kept {} ops := by
  have hslot : (([Op.newChannel, .rmCh 0, .newChannel].foldl step {}).slot 0 = some 1) ∧
      (([Op.newChannel, .rmCh 0, .newChannel].foldl step {}).slot 1 = some 1) := by decide
  refine ⟨hslot.1, hslot.2, by decide, by decide, fun h => ?_⟩
  have hk := h [.newChannel, .rmCh 0, .newChannel] 3
  exact absurd (hk.once 0 1 1 hslot.1 hslot.2) (by decide)

end ChannelTable

end Qtalk.Legacy
