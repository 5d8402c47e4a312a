import Qtalk.Lib.IdMap
import Mathlib.Algebra.BigOperators.Group.List.Basic
import Mathlib.Algebra.Order.Ring.Nat

/-!
# Channel list, buffer and window

The three shared data structures of `golang/mux/util.go`. Each operation is one
critical section of the source, so it is one function here; the operations that wait
on a condition variable report `none` where they would wait.
-/

namespace Qtalk.Mux
open Qtalk.Lib

/-- `min(a uint32, b int)`, the conversion of `b` included. -/
protected def min (a : UInt32) (b : Nat) : UInt32 :=
  if a < UInt32.ofNat b then a else UInt32.ofNat b

theorem min_le_left (a : UInt32) (b : Nat) : (Mux.min a b).toNat ≤ a.toNat := by
  simp only [Mux.min, UInt32.lt_iff_toNat_lt]
  split <;> omega

theorem min_le_right (a : UInt32) (b : Nat) : (Mux.min a b).toNat ≤ b := by
  have hb : (UInt32.ofNat b).toNat ≤ b := by
    rw [UInt32.toNat_ofNat']
    exact Nat.mod_le _ _
  simp only [Mux.min, UInt32.lt_iff_toNat_lt]
  split <;> omega

/-! ## The channel list -/

/-- `chanList.chans`: the slot of an id holds a channel or nil. -/
abbrev ChanList (α : Type) := List (Option α)

namespace ChanList

variable {α : Type}

/-- `add`: the first free slot, or a new one at the end, and the id `uint32` of it. -/
def add (chans : ChanList α) (ch : α) : ChanList α × UInt32 :=
  match chans.findIdx? Option.isNone with
  | some i => (chans.set i (some ch), UInt32.ofNat i)
  | none => (chans ++ [some ch], UInt32.ofNat chans.length)

/-- `getChan`; `none` is nil. -/
def getChan (chans : ChanList α) (id : UInt32) : Option α :=
  if id < UInt32.ofNat chans.length then chans[id.toNat]?.join else none

/-- `remove`. -/
def remove (chans : ChanList α) (id : UInt32) : ChanList α :=
  if id < UInt32.ofNat chans.length then chans.set id.toNat none else chans

/-- The channels `dropAll` returns; the list itself becomes nil. -/
def dropAll (chans : ChanList α) : List α := chans.filterMap id

/-- What slot `i` holds. -/
def slot (chans : ChanList α) (i : Nat) : Option α := chans[i]?.join

theorem slot_set (chans : ChanList α) (i j : Nat) (o : Option α) (hi : i < chans.length) :
    slot (chans.set i o) j = if j = i then o else slot chans j := by
  simp only [slot, List.getElem?_set]
  by_cases h : j = i
  · subst h
    simp [hi]
  · simp [h, Ne.symm h]

theorem slot_eq_none {chans : ChanList α} {i : Nat} (h : chans.length ≤ i) :
    slot chans i = none := by
  simp [slot, List.getElem?_eq_none h]

theorem lt_of_slot {chans : ChanList α} {i : Nat} {ch : α} (h : slot chans i = some ch) :
    i < chans.length := by
  by_contra hge
  rw [slot_eq_none (Nat.le_of_not_lt hge)] at h
  cases h

theorem mem_dropAll {chans : ChanList α} {ch : α} :
    ch ∈ dropAll chans ↔ ∃ i, slot chans i = some ch := by
  simp only [dropAll, List.mem_filterMap, id, slot]
  constructor
  · rintro ⟨o, ho, rfl⟩
    obtain ⟨i, hi⟩ := List.getElem?_of_mem ho
    exact ⟨i, by rw [hi]; rfl⟩
  · rintro ⟨i, hi⟩
    cases h : chans[i]? with
    | none => simp [h] at hi
    | some o =>
      rw [h] at hi
      exact ⟨o, List.mem_of_getElem? h, hi⟩

/-- The slot `add` fills: the first that is free, or the one behind the end. -/
def free (chans : ChanList α) : Nat := chans.findIdx Option.isNone

theorem free_le (chans : ChanList α) : chans.free ≤ chans.length := List.findIdx_le_length

theorem slot_free (chans : ChanList α) : slot chans chans.free = none := (leastFree_findIdx chans).1

/-- `add` fills the free slot and returns its number. -/
theorem add_free (chans : ChanList α) (ch : α) :
    (chans.add ch).2 = UInt32.ofNat chans.free ∧
      (∀ j, slot (chans.add ch).1 j = if j = chans.free then some ch else slot chans j) ∧
      (chans.add ch).1.length = max chans.length (chans.free + 1) := by
  cases hf : chans.findIdx? Option.isNone with
  | some i =>
    obtain ⟨hi, hfree⟩ := List.findIdx?_eq_some_iff_findIdx_eq.mp hf
    have hfree : chans.free = i := hfree
    simp only [add, hf, hfree]
    refine ⟨trivial, fun j => slot_set chans i j _ hi, ?_⟩
    rw [List.length_set]
    omega
  | none =>
    have hfree : chans.free = chans.length := List.findIdx?_eq_none_iff_findIdx_eq.mp hf
    simp only [add, hf, hfree]
    refine ⟨trivial, fun j => ?_, ?_⟩
    · simp only [slot, List.getElem?_append]
      rcases Nat.lt_trichotomy j chans.length with hj | rfl | hj
      · rw [if_pos hj, if_neg (Nat.ne_of_lt hj)]
      · simp
      · rw [if_neg (by omega), if_neg (by omega), List.getElem?_eq_none (by simp; omega),
          List.getElem?_eq_none (Nat.le_of_lt hj)]
    · rw [List.length_append, List.length_singleton]
      omega

theorem add_id_toNat {chans : ChanList α} (ch : α) (h : chans.length < 2 ^ 32) :
    (chans.add ch).2.toNat = chans.free := by
  have hle := chans.free_le
  rw [(chans.add_free ch).1, UInt32.toNat_ofNat', Nat.mod_eq_of_lt (by omega)]

/-- `add` fills exactly the slot of the id it returns, which was free. -/
theorem slot_add {chans : ChanList α} (ch : α) (h : chans.length + 1 < 2 ^ 32) :
    slot chans (chans.add ch).2.toNat = none ∧
      (∀ j, slot (chans.add ch).1 j
        = if j = (chans.add ch).2.toNat then some ch else slot chans j) ∧
      (chans.add ch).1.length ≤ chans.length + 1 ∧
      (chans.add ch).2.toNat < (chans.add ch).1.length := by
  obtain ⟨-, hslot, hlen⟩ := chans.add_free ch
  have hle := chans.free_le
  rw [add_id_toNat ch (by omega), hlen]
  exact ⟨slot_free chans, hslot, by omega, by omega⟩

theorem length_lt_iff {chans : ChanList α} (h : chans.length < 2 ^ 32) (id : UInt32) :
    id < UInt32.ofNat chans.length ↔ id.toNat < chans.length := by
  rw [UInt32.lt_iff_toNat_lt, UInt32.toNat_ofNat', Nat.mod_eq_of_lt h]

theorem getChan_eq {chans : ChanList α} (h : chans.length < 2 ^ 32) (id : UInt32) :
    chans.getChan id = slot chans id.toNat := by
  rw [getChan]
  split
  · rfl
  · next hid =>
    rw [length_lt_iff h] at hid
    exact (slot_eq_none (by omega)).symm

theorem slot_remove {chans : ChanList α} (h : chans.length < 2 ^ 32) (id : UInt32) (j : Nat) :
    slot (chans.remove id) j = if j = id.toNat then none else slot chans j := by
  rw [remove]
  split
  · next hid => exact slot_set chans _ j none ((length_lt_iff h id).mp hid)
  · next hid =>
    rw [length_lt_iff h] at hid
    split
    · next hj => rw [hj]; exact slot_eq_none (by omega)
    · rfl

/-- What is left after a removal was there before, under another number. -/
theorem slot_of_remove {chans : ChanList α} (h : chans.length < 2 ^ 32) {id : UInt32} {j : Nat} {ch : α}
    (hj : slot (chans.remove id) j = some ch) : j ≠ id.toNat ∧ slot chans j = some ch := by
  rw [slot_remove h] at hj
  split at hj
  · cases hj
  · next hne => exact ⟨hne, hj⟩

@[simp] theorem remove_length (chans : ChanList α) (id : UInt32) :
    (chans.remove id).length = chans.length := by
  rw [remove]; split <;> simp

end ChanList

/-! ## The buffer -/

/-- `buffer`: the chain of elements from `head` on, and the flag set by `eof`. -/
structure Buffer where
  head : List UInt8 := []
  next : List (List UInt8) := []
  closed : Bool := false
  deriving DecidableEq, Repr

/-- What a `Read` of the buffer comes to. -/
inductive BufferRead where
  | bytes (bs : List UInt8) (b : Buffer)
  | eof
  /-- it waits for the producer -/
  | wait

namespace Buffer

/-- The unread bytes. -/
def content (b : Buffer) : List UInt8 := b.head ++ b.next.flatten

def write (b : Buffer) (buf : List UInt8) : Buffer := { b with next := b.next ++ [buf] }

def eof (b : Buffer) : Buffer := { b with closed := true }

/-- The copying part of the loop of `Read`: what is copied into a buffer of length `n`,
and the head and chain left. The loop moves on to the next element only while it still
has room. -/
def drain : Nat → List UInt8 → List (List UInt8) → List UInt8 × List UInt8 × List (List UInt8)
  | n, head, [] => (head.take n, head.drop n, [])
  | n, head, e :: es =>
    if n ≤ head.length then (head.take n, head.drop n, e :: es)
    else
      let (bs, h, t) := drain (n - head.length) e es
      (head ++ bs, h, t)

/-- `Read` into a buffer of length `n`. -/
def Read (b : Buffer) (n : Nat) : BufferRead :=
  if n = 0 then .bytes [] b
  else
    let (bs, head, next) := drain n b.head b.next
    if bs ≠ [] then .bytes bs { b with head, next }
    else if b.closed then .eof
    else .wait

@[simp] theorem content_write (b : Buffer) (buf : List UInt8) :
    (b.write buf).content = b.content ++ buf := by
  simp [content, write]

@[simp] theorem content_eof (b : Buffer) : b.eof.content = b.content := rfl

/-- The loop copies from the front of the unread bytes, as many as fit. -/
theorem drain_eq (n : Nat) (head : List UInt8) (next : List (List UInt8)) :
    (drain n head next).1 = (head ++ next.flatten).take n ∧
      (drain n head next).2.1 ++ (drain n head next).2.2.flatten = (head ++ next.flatten).drop n := by
  induction next generalizing n head with
  | nil => simp [drain]
  | cons e es ih =>
    rw [drain]
    split
    · next h =>
      rw [List.take_append_of_le_length h, List.drop_append_of_le_length h]
      exact ⟨rfl, rfl⟩
    · next h =>
      obtain ⟨h1, h2⟩ := ih (n - head.length) e
      rw [List.flatten_cons]
      refine ⟨?_, ?_⟩
      · rw [List.take_append, List.take_of_length_le (by omega), ← h1]
      · rw [List.drop_append, List.drop_eq_nil_of_le (by omega), List.nil_append, ← h2]

/-- What `Read` returns stood in front of the unread bytes. -/
theorem Read_bytes {b b' : Buffer} {n : Nat} {bs : List UInt8} (h : b.Read n = .bytes bs b') :
    b.content = bs ++ b'.content ∧ bs = b.content.take n ∧ b'.closed = b.closed := by
  rw [Read] at h
  split at h
  · next hn =>
    cases h
    subst hn
    simp
  · obtain ⟨h1, h2⟩ := drain_eq n b.head b.next
    simp only at h
    split at h
    · cases h
      refine ⟨?_, h1, rfl⟩
      rw [h1]
      simp only [content]
      rw [h2, List.take_append_drop]
    · split at h <;> cases h

/-- `Read` reports the end only where nothing is left and the buffer is closed. -/
theorem Read_eof {b : Buffer} {n : Nat} (h : b.Read n = .eof) : b.content = [] ∧ b.closed = true := by
  rw [Read] at h
  split at h
  · cases h
  · next hn =>
    obtain ⟨h1, -⟩ := drain_eq n b.head b.next
    simp only at h
    split at h
    · cases h
    · next hbs =>
      split at h
      · next hc =>
        refine ⟨?_, hc⟩
        rw [h1, ne_eq, not_not, List.take_eq_nil_iff] at hbs
        exact hbs.resolve_left hn
      · cases h

theorem Read_pos {b : Buffer} {n : Nat} (hn : 0 < n) (hc : b.content ≠ []) :
    ∃ b', b.Read n = .bytes (b.content.take n) b' ∧ b'.content = b.content.drop n ∧
      b'.closed = b.closed := by
  obtain ⟨h1, h2⟩ := drain_eq n b.head b.next
  have hne : (drain n b.head b.next).1 ≠ [] := by
    rw [h1, ne_eq, List.take_eq_nil_iff]
    exact fun h => h.elim (Nat.ne_of_gt hn) hc
  refine ⟨{ b with head := _, next := _ }, ?_, h2, rfl⟩
  rw [Read, if_neg (Nat.ne_of_gt hn)]
  simp only [ne_eq, hne, not_false_eq_true, if_true]
  rw [h1]
  rfl

theorem Read_empty {b : Buffer} {n : Nat} (hn : 0 < n) (hc : b.content = []) :
    b.Read n = if b.closed then .eof else .wait := by
  obtain ⟨h1, -⟩ := drain_eq n b.head b.next
  have hnil : (drain n b.head b.next).1 = [] := by
    rw [h1, show b.head ++ b.next.flatten = [] from hc, List.take_nil]
  rw [Read, if_neg (Nat.ne_of_gt hn)]
  simp only [hnil, ne_eq, not_true_eq_false, if_false]

end Buffer

/-! ## The window -/

/-- `window`; the count of waiting writers serves a test only. -/
structure Window where
  win : UInt32 := 0
  closed : Bool := false
  deriving DecidableEq, Repr

namespace Window

/-- `add`; `none` where it returns false. -/
def add (w : Window) (win : UInt32) : Option Window :=
  if win = 0 then some w
  else if w.win + win < win then none
  else some { w with win := w.win + win }

def close (w : Window) : Window := { w with closed := true }

/-- `reserve`: what is granted, whether `io.EOF` comes with it, and the window left;
`none` where it waits. -/
def reserve (w : Window) (win : UInt32) : Option (UInt32 × Bool × Window) :=
  if w.win = 0 ∧ w.closed = false then none
  else
    let win := if w.win < win then w.win else win
    some (win, w.closed, { w with win := w.win - win })

/-- `add` succeeds exactly where the sum fits 32 bits, and then adds. -/
theorem add_eq_some {w w' : Window} {n : UInt32} (h : w.add n = some w') :
    w'.win.toNat = w.win.toNat + n.toNat ∧ w'.closed = w.closed := by
  rw [add] at h
  split at h
  · next hn =>
    cases h
    simp [hn]
  · split at h
    · cases h
    · next hlt =>
      cases h
      rw [UInt32.lt_iff_toNat_lt, UInt32.toNat_add] at hlt
      simp only [UInt32.toNat_add, and_true]
      have := w.win.toNat_lt
      have := n.toNat_lt
      omega

theorem add_isSome {w : Window} {n : UInt32} (h : w.win.toNat + n.toNat < 2 ^ 32) :
    ∃ w', w.add n = some w' := by
  rw [add]
  split
  · exact ⟨_, rfl⟩
  · rw [if_neg]
    · exact ⟨_, rfl⟩
    · rw [UInt32.lt_iff_toNat_lt, UInt32.toNat_add, Nat.mod_eq_of_lt h]
      omega

/-- `reserve` takes from the window what it grants, and no more than was asked for. -/
theorem reserve_eq_some {w w' : Window} {n g : UInt32} {closed : Bool}
    (h : w.reserve n = some (g, closed, w')) :
    w'.win.toNat + g.toNat = w.win.toNat ∧ g.toNat ≤ n.toNat ∧ closed = w.closed ∧
      w'.closed = w.closed := by
  rw [reserve] at h
  split at h
  · cases h
  · simp only [Option.some.injEq, Prod.mk.injEq] at h
    obtain ⟨rfl, rfl, rfl⟩ := h
    have hle : (if w.win < n then w.win else n) ≤ w.win := by
      split
      · exact UInt32.le_refl _
      · next h => exact UInt32.not_lt.mp h
    have hsub := UInt32.toNat_sub_of_le _ _ hle
    rw [UInt32.le_iff_toNat_le] at hle
    refine ⟨by simp only [hsub]; omega, ?_, rfl, rfl⟩
    split
    · next h => exact Nat.le_of_lt (UInt32.lt_iff_toNat_lt.mp h)
    · exact Nat.le_refl _

end Window

end Qtalk.Mux
