import Qtalk.Lib.Runs
import Qtalk.Mux.Util

/-!
# The channel list as a map

`chanList` of `golang/mux/util.go` under any sequence of its operations. A slice with holes
stands for the map from ids to channels that the history of the operations describes
(`list_is_map`), as long as fewer than 2^32 slots hold a channel: the slice grows only when
all of its slots do, so the conversion of its length to an id is exact until then.
-/

namespace Qtalk.Mux
open Qtalk.Lib

inductive ChanOp (α : Type) where
  | add (ch : α)
  | getChan (id : UInt32)
  | remove (id : UInt32)
  | dropAll
  deriving DecidableEq, Repr

/-- The list, and what was done to it. -/
structure ChanHistory (α : Type) where
  chans : ChanList α := []
  -- history
  log : List (Entry UInt32 α) := []
  deriving DecidableEq, Repr

/-- The slots that hold a channel. -/
def ChanList.live {α : Type} (chans : ChanList α) : Nat := chans.countP Option.isSome

namespace ChanHistory

variable {α : Type}

/-- One operation; what it returns is said by the list before. -/
def next (t : ChanHistory α) : ChanOp α → Option (ChanHistory α)
  | .add ch =>
    let (chans, id) := t.chans.add ch
    some { chans, log := .added id ch :: t.log }
  | .getChan _ => some t
  | .remove id => some { chans := t.chans.remove id, log := .removed id :: t.log }
  | .dropAll => some { chans := [], log := .dropped :: t.log }

/-- Fewer than 2^32 slots hold a channel after the operation. -/
def Roomy (t : ChanHistory α) (op : ChanOp α) : Prop := ∀ t' ∈ t.next op, t'.chans.live < 2 ^ 32

instance (t : ChanHistory α) (op : ChanOp α) : Decidable (t.Roomy op) :=
  inferInstanceAs (Decidable (∀ t' ∈ t.next op, _))

/-- What the operations return is what the history says. -/
structure IsMap (t : ChanHistory α) : Prop where
  add : ∀ ch, LeastFree (held t.log) (t.chans.add ch).2
  getChan : ∀ id, t.chans.getChan id = held t.log id
  remove : ∀ id i, (t.chans.remove id).getChan i = if i = id then none else t.chans.getChan i
  dropAll : InOrder (held t.log) t.chans.dropAll

/-- The slice has not outgrown the ids, and its slots hold what the history says. -/
structure Represents (t : ChanHistory α) : Prop where
  short : t.chans.length < 2 ^ 32
  slots : ∀ id, held t.log id = ChanList.slot t.chans id.toNat

/-! ## What an operation keeps -/

/-- The slice grows when all of its slots hold a channel. -/
theorem live_full {chans : ChanList α} (ch : α) (h : chans.free = chans.length) :
    (chans.add ch).1.live = chans.length + 1 := by
  have hnone : chans.findIdx? Option.isNone = none := List.findIdx?_eq_none_iff_findIdx_eq.mpr h
  have hall : ∀ o ∈ chans, o.isSome = true := by
    intro o ho
    have hsome := List.findIdx_eq_length.mp h o ho
    rwa [Option.isNone_eq_false_iff] at hsome
  rw [ChanList.live, ChanList.add, hnone]
  dsimp only
  rw [List.countP_append, List.countP_eq_length.mpr hall]
  rfl

theorem Represents.add {t : ChanHistory α} (h : t.Represents) (ch : α)
    (hroom : (t.chans.add ch).1.live < 2 ^ 32) :
    Represents { chans := (t.chans.add ch).1, log := .added (t.chans.add ch).2 ch :: t.log } := by
  obtain ⟨-, hslot, hlen⟩ := t.chans.add_free ch
  have hid := ChanList.add_id_toNat ch h.short
  constructor
  · dsimp only
    rw [hlen]
    have hshort := h.short
    have hle := t.chans.free_le
    by_cases hfull : t.chans.free = t.chans.length
    · rw [live_full ch hfull] at hroom
      omega
    · omega
  · intro id
    rw [held, hslot, ← hid, h.slots]
    refine if_congr ?_ rfl rfl
    rw [← UInt32.toNat_inj]

theorem Represents.remove {t : ChanHistory α} (h : t.Represents) (id : UInt32) :
    Represents { chans := t.chans.remove id, log := .removed id :: t.log } := by
  constructor
  · dsimp only
    rw [ChanList.remove_length]
    exact h.short
  · intro i
    rw [held, ChanList.slot_remove h.short, h.slots]
    refine if_congr ?_ rfl rfl
    rw [← UInt32.toNat_inj]

theorem Represents.nil : Represents ({} : ChanHistory α) := ⟨Nat.two_pow_pos 32, fun _ => rfl⟩

theorem Represents.dropAll (log : List (Entry UInt32 α)) :
    Represents { chans := [], log := .dropped :: log } :=
  ⟨Nat.two_pow_pos 32, fun _ => rfl⟩

theorem Represents.step {t t' : ChanHistory α} {op : ChanOp α} (h : t.Represents) (hroom : t.Roomy op)
    (hn : t.next op = some t') : t'.Represents := by
  have hlive : t'.chans.live < 2 ^ 32 := hroom t' hn
  cases op with
  | add ch =>
    cases hn
    exact h.add ch hlive
  | getChan id =>
    cases hn
    exact h
  | remove id =>
    cases hn
    exact h.remove id
  | dropAll =>
    cases hn
    exact .dropAll t.log

/-! ## What the operations return -/

theorem Represents.isMap {t : ChanHistory α} (h : t.Represents) : t.IsMap := by
  have hslots : held t.log = fun id => ChanList.slot t.chans id.toNat := funext h.slots
  have hget : ∀ id, t.chans.getChan id = held t.log id := fun id =>
    (ChanList.getChan_eq h.short id).trans (h.slots id).symm
  refine ⟨fun ch => ?_, hget, fun id i => ?_, ?_⟩
  · obtain ⟨hfree, hused⟩ := leastFree_findIdx t.chans
    have hid : (t.chans.add ch).2.toNat = t.chans.findIdx Option.isNone :=
      ChanList.add_id_toNat ch h.short
    rw [hslots]
    constructor
    · dsimp only
      rw [hid]
      exact hfree
    · intro i hi
      rw [UInt32.lt_iff_toNat_lt, hid] at hi
      exact hused i.toNat hi
  · have hafter := ChanList.getChan_eq (h.remove id).short i
    dsimp only at hafter
    rw [hafter, ChanList.slot_remove h.short, ChanList.getChan_eq h.short]
    refine if_congr ?_ rfl rfl
    rw [← UInt32.toNat_inj]
  · rw [hslots]
    refine (inOrder_filterMap t.chans).comap (fun i j heq => UInt32.toNat_inj.mp heq)
      (fun i j hlt => UInt32.lt_iff_toNat_lt.mpr hlt) fun i hi => ?_
    have hlt : i < t.chans.length := by
      obtain ⟨ch, hch⟩ := Option.isSome_iff_exists.mp hi
      exact ChanList.lt_of_slot hch
    have hshort := h.short
    refine ⟨UInt32.ofNat i, ?_⟩
    rw [UInt32.toNat_ofNat', Nat.mod_eq_of_lt (by omega)]

/-- **The channel list is a map.** After any operations with fewer than 2^32 channels held at a
time, `add` returns the smallest id that no channel has, `getChan` the channel last added under
an id unless it was removed or dropped, `remove` concerns its own id alone, and `dropAll` returns
the channels held, in the order of their ids. -/
theorem list_is_map {t : ChanHistory α} (run : Run next Roomy {} t) : t.IsMap := by
  have represents : t.Represents := run.invariant .nil fun _ _ _ _ h hroom hn => h.step hroom hn
  exact represents.isMap

/-- Three channels, of which two go; the next one gets the smaller of their ids. -/
theorem list_is_map_run : ∃ t : ChanHistory Char, t.IsMap ∧ (t.chans.add 'z').2 = 2 ∧
    t.chans.getChan 0 = some 'd' ∧ t.chans.dropAll = ['d', 'b'] := by
  obtain ⟨t, run, ht⟩ := Run.of_exec next Roomy ({} : ChanHistory Char)
    [.add 'a', .add 'b', .add 'c', .remove 2, .remove 0, .remove 7, .getChan 9, .add 'd']
    (fun t => decide ((t.chans.add 'z').2 = 2 ∧ t.chans.getChan 0 = some 'd' ∧
      t.chans.dropAll = ['d', 'b'])) (by decide +kernel)
  obtain ⟨hadd, hget, hdrop⟩ := of_decide_eq_true ht
  exact ⟨t, list_is_map run, hadd, hget, hdrop⟩

end ChanHistory

end Qtalk.Mux
