import Qtalk.Js.Teardown
import Qtalk.Lib.Sparse

/-!
# The table of channels

`newChannel`, `getCh`, `addCh`, `rmCh` and `close` of `javascript/mux/session.ts` on the array
`channels` as it is, holes and undefined slots apart. The `return i` in `addCh` returns from the
callback alone, so a slot it filled would get the channel a second time, by the push. It fills
none: `delete` leaves holes, and `forEach` passes over them. Where the array has all the slots an
array can have, `push` sets the property `4294967295`, which is none of them, and throws.
-/

namespace Qtalk.Js
open Qtalk.Lib

/-- The array `channels`, its property `4294967295`, and the field `localId` of every channel made,
by the channel's number. -/
structure ChannelTable where
  localIds : List Nat := []
  channels : Sparse Nat := []
  past : Option Nat := none
  deriving DecidableEq, Repr

namespace ChannelTable

/-- `addCh`: nothing is returned where `push` throws, having set the property. -/
def addCh (t : ChannelTable) (ch : Nat) : ChannelTable × Option Nat :=
  let channels := t.channels.forEach fun channels v i =>
    if v = none then channels.assign i (.val ch) else channels
  if channels.length < maxLength then
    let channels := channels.push ch
    ({ t with channels }, some (channels.length - 1))
  else
    ({ t with channels, past := some ch }, none)

/-- `newChannel`: the constructor sets `localId` to 0, and it is assigned behind `addCh`. -/
def newChannel (t : ChannelTable) : ChannelTable :=
  let ch := t.localIds.length
  match { t with localIds := t.localIds ++ [0] }.addCh ch with
  | (t, some id) => { t with localIds := t.localIds.set ch id }
  | (t, none) => t

/-- `getCh`; where it is undefined the loop fails on `ch.localId`. A number that is no index names a
property. -/
def getCh (t : ChannelTable) (id : Nat) : Option Nat :=
  if id < maxLength then t.channels.get id else if id = maxLength then t.past else none

/-- `rmCh`. -/
def rmCh (t : ChannelTable) (id : Nat) : ChannelTable :=
  if id < maxLength then { t with channels := t.channels.delete id }
  else if id = maxLength then { t with past := none } else t

/-- `shutdown` of channel `ch`: `rmCh(this.localId)`. -/
def shutdown (t : ChannelTable) (ch : Nat) : ChannelTable :=
  match t.localIds[ch]? with
  | some localId => t.rmCh localId
  | none => t

/-- An OpenFailureMessage: the loop's `getCh`, and `rmCh(msg.channelID)` of `handle`. -/
def openFailure (t : ChannelTable) (channelID : Nat) : ChannelTable :=
  match t.getCh channelID with
  | some _ => t.rmCh channelID
  | none => t

/-- The body of the loop in `close`: a `shutdown`, unless the slot is undefined by then. -/
def shutdownAt (t : ChannelTable) (id : Nat) : ChannelTable :=
  match t.getCh id with
  | some ch => t.shutdown ch
  | none => t

/-- `Object.keys(this.channels)`, as numbers. -/
def keys (t : ChannelTable) : List Nat := t.channels.keys ++ t.past.toList.map fun _ => maxLength

/-- `close` of the session. -/
def close (t : ChannelTable) : ChannelTable := t.keys.foldl shutdownAt t

inductive Op where
  | newChannel
  | rmCh (id : Nat)
  | shutdown (ch : Nat)
  | openFailure (channelID : Nat)
  | close
  deriving DecidableEq, Repr

def step (t : ChannelTable) : Op → ChannelTable
  | .newChannel => t.newChannel
  | .rmCh id => t.rmCh id
  | .shutdown ch => t.shutdown ch
  | .openFailure channelID => t.openFailure channelID
  | .close => t.close

/-- No slot is undefined, and a channel stands in the slot of its id. -/
structure Inv (t : ChannelTable) : Prop where
  le : t.channels.length ≤ maxLength
  defined : t.channels.Defined
  ids : ∀ i ch, t.channels.get i = some ch → t.localIds[ch]? = some i

/-! ## What the operations do -/

/-- The body of `forEach` never runs on a slot to fill. -/
theorem addCh_eq {t : ChannelTable} (h : t.channels.Defined) (ch : Nat) :
    t.addCh ch = if t.channels.length < maxLength then
        ({ t with channels := t.channels.push ch }, some t.channels.length)
      else ({ t with past := some ch }, none) := by
  have hsame := h.forEach (f := fun channels v i =>
    if v = none then channels.assign i (.val ch) else channels) fun a i => if_neg (by simp)
  rw [addCh, hsame]
  dsimp only
  rw [Sparse.push, List.length_append, List.length_singleton, Nat.add_sub_cancel]

theorem newChannel_of_lt {t : ChannelTable} (h : t.channels.Defined)
    (hlt : t.channels.length < maxLength) : t.newChannel = { t with
      localIds := t.localIds ++ [t.channels.length]
      channels := t.channels.push t.localIds.length } := by
  have hadd := addCh_eq (t := { t with localIds := t.localIds ++ [0] }) h t.localIds.length
  rw [if_pos hlt] at hadd
  rw [newChannel, hadd]
  dsimp only
  rw [List.set_append_right _ _ (Nat.le_refl _), Nat.sub_self]
  rfl

theorem newChannel_of_full {t : ChannelTable} (h : t.channels.Defined)
    (hfull : ¬ t.channels.length < maxLength) : t.newChannel = { t with
      localIds := t.localIds ++ [0]
      past := some t.localIds.length } := by
  have hadd := addCh_eq (t := { t with localIds := t.localIds ++ [0] }) h t.localIds.length
  rw [if_neg hfull] at hadd
  rw [newChannel, hadd]

theorem getCh_rmCh (t : ChannelTable) (id i : Nat) :
    (t.rmCh id).getCh i = if i = id then none else t.getCh i := by
  rw [rmCh]
  by_cases hid : id < maxLength
  · rw [if_pos hid, getCh, getCh, Sparse.get_delete]
    by_cases hi : i < maxLength
    · rw [if_pos hi, if_pos hi]
    · rw [if_neg hi, if_neg hi, if_neg (by omega : ¬ i = id)]
  · rw [if_neg hid]
    by_cases heq : i = id
    · subst heq
      rw [if_pos rfl]
      split
      · next hm => rw [getCh, if_neg hid, if_pos hm]
      · next hm => rw [getCh, if_neg hid, if_neg hm]
    · rw [if_neg heq]
      split
      · next hm =>
        rw [getCh, getCh, if_neg (by omega : ¬ i = maxLength), if_neg (by omega : ¬ i = maxLength)]
      · rfl

theorem rmCh_channels (t : ChannelTable) (id : Nat) :
    (t.rmCh id).localIds = t.localIds ∧
      ((t.rmCh id).channels = t.channels ∨ (t.rmCh id).channels = t.channels.delete id) := by
  rw [rmCh]
  split
  · exact ⟨rfl, .inr rfl⟩
  · split <;> exact ⟨rfl, .inl rfl⟩

namespace Inv

variable {t : ChannelTable}

/-- A slot is below the limit, so `getCh` looks there. -/
theorem getCh (h : t.Inv) {i ch : Nat} (hi : t.channels.get i = some ch) : t.getCh i = some ch := by
  have hlt := Nat.lt_of_lt_of_le (Sparse.get_lt hi) h.le
  rw [ChannelTable.getCh, if_pos hlt]
  exact hi

theorem rmCh (h : t.Inv) (id : Nat) : (t.rmCh id).Inv := by
  obtain ⟨hids, hsame | hdelete⟩ := rmCh_channels t id
  · exact ⟨hsame ▸ h.le, hsame ▸ h.defined, fun i ch hi => hids ▸ h.ids i ch (hsame ▸ hi)⟩
  · refine ⟨?_, hdelete ▸ h.defined.delete id, fun i ch hi => ?_⟩
    · rw [hdelete, Sparse.delete, List.length_set]
      exact h.le
    · rw [hdelete, Sparse.get_delete] at hi
      split at hi
      · cases hi
      · exact hids ▸ h.ids i ch hi

theorem newChannel (h : t.Inv) : t.newChannel.Inv := by
  by_cases hlt : t.channels.length < maxLength
  · rw [newChannel_of_lt h.defined hlt]
    refine ⟨?_, h.defined.push _, fun i ch hi => ?_⟩
    · show (Sparse.push _ _).length ≤ maxLength
      rw [Sparse.push, List.length_append]
      exact hlt
    · rw [Sparse.get_push] at hi
      split at hi
      · next heq =>
        cases hi
        rw [heq]
        exact List.getElem?_concat_length
      · have hid := h.ids i ch hi
        obtain ⟨hch, -⟩ := List.getElem?_eq_some_iff.mp hid
        rw [List.getElem?_append_left hch]
        exact hid
  · rw [newChannel_of_full h.defined hlt]
    refine ⟨h.le, h.defined, fun i ch hi => ?_⟩
    have hid := h.ids i ch hi
    obtain ⟨hch, -⟩ := List.getElem?_eq_some_iff.mp hid
    rw [List.getElem?_append_left hch]
    exact hid

theorem shutdown (h : t.Inv) (ch : Nat) : (t.shutdown ch).Inv := by
  rw [ChannelTable.shutdown]
  split
  · exact h.rmCh _
  · exact h

theorem close (h : t.Inv) : t.close.Inv := by
  rw [ChannelTable.close]
  generalize t.keys = ids
  induction ids generalizing t with
  | nil => exact h
  | cons id ids ih =>
    rw [List.foldl_cons, shutdownAt]
    split
    · exact ih (h.shutdown _)
    · exact ih h

theorem step (h : t.Inv) (op : Op) : (t.step op).Inv := by
  cases op with
  | newChannel => exact h.newChannel
  | rmCh id => exact h.rmCh id
  | shutdown ch => exact h.shutdown ch
  | openFailure channelID =>
    rw [ChannelTable.step, openFailure]
    split
    · exact h.rmCh _
    · exact h
  | close => exact h.close

theorem run (h : t.Inv) (ops : List Op) : (ops.foldl ChannelTable.step t).Inv := by
  induction ops generalizing t with
  | nil => exact h
  | cons op ops ih => exact ih (h.step op)

end Inv

/-- What holds of the slots of the table, and of the next operation on it. -/
structure Kept (t : ChannelTable) : Prop where
  ids : ∀ i ch, t.channels.get i = some ch → t.localIds[ch]? = some i
  once : ∀ i j ch, t.channels.get i = some ch → t.channels.get j = some ch → i = j
  /-- a new channel has an id of its own, is found under it, and displaces nobody -/
  fresh : t.channels.length < maxLength → ∃ id, t.newChannel.localIds[t.localIds.length]? = some id ∧
    t.newChannel.getCh id = some t.localIds.length ∧
    ∀ i ch, t.channels.get i = some ch →
      i ≠ id ∧ t.localIds[ch]? ≠ some id ∧ t.newChannel.getCh i = some ch
  /-- where `push` throws there is no new id, and the slots stay as they are -/
  full : ¬ t.channels.length < maxLength →
    (t.addCh t.localIds.length).2 = none ∧ t.newChannel.channels = t.channels
  removal : ∀ id i ch, t.channels.get i = some ch → i ≠ id →
    (t.rmCh id).getCh i = some ch ∧ (t.rmCh id).localIds[ch]? = some i

theorem Inv.fresh {t : ChannelTable} (h : t.Inv) (hlt : t.channels.length < maxLength) :
    ∃ id, t.newChannel.localIds[t.localIds.length]? = some id ∧
      t.newChannel.getCh id = some t.localIds.length ∧
      ∀ i ch, t.channels.get i = some ch →
        i ≠ id ∧ t.localIds[ch]? ≠ some id ∧ t.newChannel.getCh i = some ch := by
  have hnew := h.newChannel
  rw [newChannel_of_lt h.defined hlt] at hnew ⊢
  refine ⟨t.channels.length, List.getElem?_concat_length, ?_, fun i ch hi => ?_⟩
  · exact hnew.getCh (by rw [Sparse.get_push, if_pos rfl])
  · have hne : i ≠ t.channels.length := Nat.ne_of_lt (Sparse.get_lt hi)
    refine ⟨hne, ?_, ?_⟩
    · rw [h.ids i ch hi]
      exact fun heq => hne (Option.some.inj heq)
    · exact hnew.getCh (by rw [Sparse.get_push, if_neg hne]; exact hi)

theorem Inv.kept {t : ChannelTable} (h : t.Inv) : t.Kept := by
  refine ⟨h.ids, fun i j ch hi hj => ?_, h.fresh, fun hfull => ⟨?_, ?_⟩, fun id i ch hi hne => ?_⟩
  · exact Option.some.inj ((h.ids i ch hi).symm.trans (h.ids j ch hj))
  · rw [addCh_eq h.defined, if_neg hfull]
  · rw [newChannel_of_full h.defined hfull]
  · refine ⟨?_, (rmCh_channels t id).1 ▸ h.ids i ch hi⟩
    rw [getCh_rmCh, if_neg hne]
    exact h.getCh hi

/-- The table is kept by every sequence of operations. -/
theorem table_kept (ops : List Op) : (ops.foldl step {}).Kept :=
  (Inv.run ⟨Nat.zero_le _, Sparse.defined_nil, fun i ch hi => by simp [Sparse.get] at hi⟩ ops).kept

/-- Two channels are removed, and the next one gets a slot of its own behind the holes. -/
example : [Op.newChannel, .newChannel, .newChannel, .rmCh 1, .shutdown 0, .newChannel].foldl step {} =
    { localIds := [0, 1, 2, 3], channels := [.hole, .hole, .val 2, .val 3] } := by decide

/-! ## The table of the session model -/

/-- The table of a session, whose array has holes alone: an empty slot is `none` there. -/
structure Holds (t : ChannelTable) (s : Session) : Prop where
  le : t.channels.length ≤ maxLength
  slots : t.channels.map Slot.value? = s.channels
  past : t.past = none
  localIds : t.localIds = s.chans.map (·.localId)

theorem Holds.getCh {t : ChannelTable} {s : Session} (h : t.Holds s) (id : Nat) :
    t.getCh id = s.getCh id := by
  have hslot : t.channels.get id = s.getCh id := by
    rw [Session.getCh, ← h.slots, List.getElem?_map, Sparse.get]
    cases t.channels[id]? <;> rfl
  rw [ChannelTable.getCh, h.past, ite_self, hslot]
  split
  · rfl
  · next hge =>
    rw [← hslot, Sparse.get, List.getElem?_eq_none (Nat.le_trans h.le (Nat.le_of_not_lt hge))]
    rfl

theorem Holds.newChannel {t : ChannelTable} {s : Session} (h : t.Holds s) (hd : t.channels.Defined)
    (hlt : t.channels.length < maxLength) {ch : Chan} (hch : ch.localId = s.newChannel.localId) :
    t.newChannel.Holds (s.addCh ch) := by
  rw [newChannel_of_lt hd hlt]
  have hlen : s.channels.length = t.channels.length := by rw [← h.slots, List.length_map]
  constructor
  case le =>
    show (Sparse.push _ _).length ≤ maxLength
    rw [Sparse.push, List.length_append]
    exact hlt
  case slots =>
    rw [Sparse.push, List.map_append, h.slots, h.localIds, List.length_map]
    rfl
  case past => exact h.past
  case localIds =>
    rw [Session.addCh, List.map_append, ← h.localIds, List.map_singleton, hch]
    exact congrArg (fun n => t.localIds ++ [n]) hlen.symm

theorem Holds.rmCh {t : ChannelTable} {s : Session} (h : t.Holds s) (o id : Nat) :
    (t.rmCh id).Holds (Session.perform o s (.rmCh id)) := by
  have hset : (t.channels.delete id).map Slot.value? = s.channels.set id none := by
    rw [Sparse.delete, List.map_set, h.slots]
    rfl
  rw [ChannelTable.rmCh]
  split
  · exact ⟨by rw [Sparse.delete, List.length_set]; exact h.le, hset, h.past, h.localIds⟩
  · next hge =>
    -- there is no such slot
    have hout : s.channels.set id none = s.channels := by
      refine List.set_eq_of_length_le ?_
      rw [← h.slots, List.length_map]
      exact Nat.le_trans h.le (Nat.le_of_not_lt hge)
    have hsame : t.Holds (Session.perform o s (.rmCh id)) := ⟨h.le, h.slots.trans hout.symm, h.past, h.localIds⟩
    split
    · exact ⟨hsame.le, hsame.slots, rfl, hsame.localIds⟩
    · exact hsame

/-- Only `rmCh` touches the table. -/
theorem Holds.effects {t : ChannelTable} {s : Session} (h : t.Holds s) (o : Nat) {es : List Effect}
    (hes : ∀ id, .rmCh id ∉ es) : t.Holds (es.foldl (Session.perform o) s) := by
  induction es generalizing s with
  | nil => exact h
  | cons e es ih =>
    refine ih ?_ fun id hid => hes id (List.mem_cons_of_mem _ hid)
    cases e with
    | rmCh id => exact absurd List.mem_cons_self (hes id)
    | _ => exact ⟨h.le, h.slots, h.past, h.localIds⟩

theorem Holds.shutdown {t : ChannelTable} {s : Session} (h : t.Holds s) (o : Nat) :
    (t.shutdown o).Holds (s.enter o .shutdown).1 := by
  have hlocal : t.localIds[o]? = s.chans[o]?.map (·.localId) := by rw [h.localIds, List.getElem?_map]
  cases hc : s.chans[o]? with
  | none =>
    rw [ChannelTable.shutdown, hlocal, hc, Session.enter, hc]
    exact h
  | some c =>
    rw [ChannelTable.shutdown, hlocal, hc, Session.enter_some hc]
    show (t.rmCh c.localId).Holds (List.foldl _ _ (_ ++ _ ++ [Effect.rmCh c.localId]))
    rw [List.foldl_append]
    refine Holds.rmCh (Holds.effects ?_ o fun id hid => ?_) o c.localId
    · obtain ⟨hlt, rfl⟩ := List.getElem?_eq_some_iff.mp hc
      refine ⟨h.le, h.slots, h.past, ?_⟩
      have hkeep : (s.chans.set o s.chans[o]).map (·.localId) = s.chans.map (·.localId) := by
        rw [List.set_getElem_self]
      rw [h.localIds, ← hkeep, List.map_set, List.map_set]
      rfl
    · rcases List.mem_append.mp hid with hid | hid
      · obtain ⟨r, -, hr⟩ := List.mem_map.mp hid
        cases hr
      · obtain ⟨w, -, hw⟩ := List.mem_map.mp hid
        cases hw

theorem getCh_shutdown {t : ChannelTable} {o i : Nat} (h : t.getCh i = none) :
    (t.shutdown o).getCh i = none := by
  rw [ChannelTable.shutdown]
  split
  · rw [getCh_rmCh, h, ite_self]
  · exact h

theorem Holds.close {t : ChannelTable} {s : Session} (h : t.Holds s) : t.close.Holds s.close := by
  have key : ∀ (seen : Nat → Bool) (ids : List Nat) (t : ChannelTable) (s : Session), t.Holds s →
      (∀ i, seen i = false → t.getCh i = none) →
        ((ids.filter seen).foldl shutdownAt t).Holds (s.shutdownAll ids) := by
    intro seen ids
    induction ids with
    | nil => exact fun t s h _ => h
    | cons id ids ih =>
      intro t s h hseen
      rw [Session.shutdownAll, ← h.getCh]
      by_cases hid : seen id = true
      · rw [List.filter_cons_of_pos hid, List.foldl_cons, shutdownAt]
        cases hg : t.getCh id with
        | none => exact ih t s h hseen
        | some ch => exact ih _ _ (h.shutdown ch) fun i hi => getCh_shutdown (hseen i hi)
      · rw [List.filter_cons_of_neg hid, hseen id (by simpa using hid)]
        exact ih t s h hseen
  have hlen : s.channels.length = t.channels.length := by rw [← h.slots, List.length_map]
  rw [Session.close, hlen]
  have hrun := key t.channels.present (List.range t.channels.length) t s h fun i hi => ?_
  · have hkeys : t.keys = t.channels.keys := by
      rw [keys, h.past]
      exact List.append_nil _
    rw [ChannelTable.close, hkeys]
    exact ⟨hrun.le, hrun.slots, hrun.past, hrun.localIds⟩
  · rw [Sparse.present] at hi
    rw [ChannelTable.getCh, h.past, ite_self, Sparse.get]
    cases hx : t.channels[i]? with
    | none => exact ite_self none
    | some x =>
      rw [hx] at hi
      cases x with
      | val a => cases hi
      | _ => exact ite_self none

end ChannelTable

end Qtalk.Js
