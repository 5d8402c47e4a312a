import Qtalk.Mux.Moves

/-!
# The loop of `Write`

`channel.Write` of `golang/mux/channel.go` as the loop it is, against any window. The
channel model cuts the loop into `reserve` and `sendData`; `Channel.iterates` puts an
iteration together again.

The size of a packet is computed from `uint32(len(data))`. Below 2^32 bytes every iteration
hands over at least one byte; from there on the loop stands still before the last 2^32 of
them (`write_completes`).
-/

namespace Qtalk.Mux
open Qtalk.Codec

inductive WriteError where
  | eof
  /-- the error of a failed `Encode` -/
  | encode
  deriving DecidableEq, Repr

/-- What an iteration meets: the window in which `reserve` need not wait any longer, and
whether `Encode` succeeds. -/
structure Turn where
  win : Window
  ok : Bool

/-- `Write` at the head of its loop: `data` is what is left, `sent` the payloads that were
handed to the encoder. -/
structure Writing where
  data : List UInt8
  n : Nat := 0
  err : Option WriteError := none
  sent : List (List UInt8) := []
  deriving DecidableEq, Repr

namespace Writing

/-- `Write` has not returned, and `len(data) > 0`. -/
def going (w : Writing) : Bool := w.err.isNone && !w.data.isEmpty

/-- The body of the loop. -/
def iterate (max : UInt32) (w : Writing) (t : Turn) : Writing :=
  match t.win.reserve (Mux.min max w.data.length) with
  | none => w
  | some (space, closed, _) =>
    if closed then { w with err := some .eof }
    else
      let toSend := w.data.take space.toNat
      let w := { w with sent := w.sent ++ [toSend] }
      if t.ok then { w with n := w.n + toSend.length, data := w.data.drop toSend.length }
      else { w with err := some .encode }

/-- `Write(data)` after `k` iterations, or where it returned before. -/
def after (max : UInt32) (turns : Nat → Turn) (data : List UInt8) : Nat → Writing
  | 0 => { data }
  | k + 1 =>
    let w := after max turns data k
    if w.going then w.iterate max (turns k) else w

/-- In every iteration the window has at least one byte. -/
def Grants (turns : Nat → Turn) : Prop := ∀ k, (turns k).win.win ≠ 0

/-- Every iteration that gets a grant hands over some bytes, no more than fit, the loop ends
after at most `len(data)` iterations, and without an error everything was handed over. -/
structure Completes (max : UInt32) (turns : Nat → Turn) (data : List UInt8) : Prop where
  progress : ∀ k, (after max turns data k).going = true → (turns k).win.closed = false →
    ∃ toSend, (after max turns data (k + 1)).sent = (after max turns data k).sent ++ [toSend] ∧
      toSend ≠ [] ∧ toSend.length ≤ min max.toNat (after max turns data k).data.length
  ends : ∃ k ≤ data.length, (after max turns data k).going = false
  complete : ∀ k, (after max turns data k).going = false → (after max turns data k).err = none →
    (after max turns data k).n = data.length ∧ (after max turns data k).sent.flatten = data

/-! ## One iteration -/

/-- `toSend` and what the advance of `data` leaves. -/
theorem take_append_drop_take (data : List UInt8) (space : Nat) :
    data.take space ++ data.drop (data.take space).length = data := by
  rcases Nat.le_total space data.length with hle | hge
  · rw [List.length_take, Nat.min_eq_left hle, List.take_append_drop]
  · rw [List.take_of_length_le hge, List.drop_length, List.append_nil]

theorem going_iff {w : Writing} : w.going = true ↔ w.err = none ∧ w.data ≠ [] := by
  simp [going]

theorem after_succ {max : UInt32} {turns : Nat → Turn} {data : List UInt8} {k : Nat}
    (h : (after max turns data k).going = true) :
    after max turns data (k + 1) = (after max turns data k).iterate max (turns k) :=
  if_pos h

theorem after_stopped {max : UInt32} {turns : Nat → Turn} {data : List UInt8} {k : Nat}
    (h : (after max turns data k).going = false) :
    after max turns data (k + 1) = after max turns data k :=
  if_neg (by rw [h]; decide)

/-- The bytes that one iteration may hand over. -/
def room (max : UInt32) (w : Writing) : Nat := (Mux.min max w.data.length).toNat

theorem room_le (max : UInt32) (w : Writing) : w.room max ≤ w.data.length % 2 ^ 32 := by
  have hb : (UInt32.ofNat w.data.length).toNat = w.data.length % 2 ^ 32 := UInt32.toNat_ofNat'
  simp only [room, Mux.min, UInt32.lt_iff_toNat_lt]
  split <;> omega

theorem room_pos {max : UInt32} (hmax : 0 < max.toNat) {w : Writing} (hd : w.data ≠ [])
    (hlen : w.data.length < 2 ^ 32) : 0 < w.room max := by
  have hpos := List.length_pos_iff.mpr hd
  have hb : (UInt32.ofNat w.data.length).toNat = w.data.length % 2 ^ 32 := UInt32.toNat_ofNat'
  rw [Nat.mod_eq_of_lt hlen] at hb
  simp only [room, Mux.min, UInt32.lt_iff_toNat_lt]
  split <;> omega

/-- The window is closed, or some of the room is granted. -/
theorem iterate_cases (max : UInt32) (w : Writing) (t : Turn) (hwin : t.win.win ≠ 0) :
    (t.win.closed = true ∧ w.iterate max t = { w with err := some .eof }) ∨
    (t.win.closed = false ∧ ∃ space ≤ w.room max, (0 < w.room max → 0 < space) ∧
      w.iterate max t =
        if t.ok then
          { w with
            n := w.n + (w.data.take space).length
            data := w.data.drop (w.data.take space).length
            sent := w.sent ++ [w.data.take space] }
        else { w with err := some .encode, sent := w.sent ++ [w.data.take space] }) := by
  have hopen : ¬ (t.win.win = 0 ∧ t.win.closed = false) := fun h => hwin h.1
  have hpos : 0 < t.win.win.toNat := by
    rw [Nat.pos_iff_ne_zero]
    intro h0
    exact hwin (UInt32.toNat_inj.mp h0)
  cases hcl : t.win.closed with
  | true =>
    left
    refine ⟨rfl, ?_⟩
    unfold iterate Window.reserve
    rw [if_neg hopen]
    simp [hcl]
  | false =>
    right
    refine ⟨rfl, (if t.win.win < Mux.min max w.data.length then t.win.win
      else Mux.min max w.data.length).toNat, ?_, fun hroom => ?_, ?_⟩
    · rw [room]
      split
      · next hlt => exact Nat.le_of_lt (UInt32.lt_iff_toNat_lt.mp hlt)
      · exact Nat.le_refl _
    · rw [room] at hroom
      split
      · exact hpos
      · exact hroom
    · unfold iterate Window.reserve
      rw [if_neg hopen]
      simp only [hcl]
      rfl

/-! ## The whole loop -/

section Loop

variable {max : UInt32} {turns : Nat → Turn} {data : List UInt8}

/-- Without an error, what is left and what was handed over make up the data. -/
theorem after_split (hg : Grants turns) (k : Nat) (he : (after max turns data k).err = none) :
    (after max turns data k).n + (after max turns data k).data.length = data.length ∧
      (after max turns data k).sent.flatten ++ (after max turns data k).data = data := by
  induction k with
  | zero => exact ⟨Nat.zero_add _, rfl⟩
  | succ k ih =>
    by_cases h : (after max turns data k).going = true
    · obtain ⟨hn, hs⟩ := ih (going_iff.mp h).1
      rw [after_succ h] at he ⊢
      rcases iterate_cases max (after max turns data k) (turns k) (hg k) with
        ⟨-, heq⟩ | ⟨-, space, -, -, heq⟩
      · rw [heq] at he
        cases he
      · rw [heq] at he ⊢
        cases hok : (turns k).ok with
        | false =>
          rw [hok] at he
          cases he
        | true =>
          simp only [if_true, List.flatten_append, List.flatten_singleton, List.append_assoc]
          refine ⟨?_, ?_⟩
          · rw [List.length_drop, List.length_take]
            omega
          · rw [take_append_drop_take]
            exact hs
    · have hstop : (after max turns data k).going = false := by simpa using h
      rw [after_stopped hstop] at he ⊢
      exact ih he

theorem after_length_le (hg : Grants turns) {k : Nat} (h : (after max turns data k).going = true) :
    (after max turns data k).data.length ≤ data.length := by
  have := (after_split hg k (going_iff.mp h).1).1
  omega

/-- Each iteration takes a byte off the data, or is the last. -/
theorem after_decreases (hmax : 0 < max.toNat) (hlen : data.length < 2 ^ 32) (hg : Grants turns)
    (k : Nat) (h : (after max turns data k).going = true) :
    (after max turns data k).data.length + k ≤ data.length := by
  induction k with
  | zero => exact Nat.le_refl _
  | succ k ih =>
    have hk : (after max turns data k).going = true := by
      by_contra hn
      have hstop : (after max turns data k).going = false := by simpa using hn
      rw [after_stopped hstop, hstop] at h
      cases h
    have hle := ih hk
    have hd := (going_iff.mp hk).2
    have hroom := room_pos hmax hd (by omega)
    have he := (going_iff.mp h).1
    rw [after_succ hk] at he ⊢
    rcases iterate_cases max (after max turns data k) (turns k) (hg k) with
      ⟨-, heq⟩ | ⟨-, space, -, hpos, heq⟩
    · rw [heq] at he
      cases he
    · have hspace := hpos hroom
      have hne := List.length_pos_iff.mpr hd
      rw [heq] at he ⊢
      cases hok : (turns k).ok with
      | false =>
        rw [hok] at he
        cases he
      | true =>
        simp only [if_true, List.length_drop, List.length_take]
        omega

theorem progress (hmax : 0 < max.toNat) (hlen : data.length < 2 ^ 32) (hg : Grants turns) (k : Nat)
    (h : (after max turns data k).going = true) (hopen : (turns k).win.closed = false) :
    ∃ toSend, (after max turns data (k + 1)).sent = (after max turns data k).sent ++ [toSend] ∧
      toSend ≠ [] ∧ toSend.length ≤ min max.toNat (after max turns data k).data.length := by
  have hd := (going_iff.mp h).2
  have hroom := room_pos hmax hd (Nat.lt_of_le_of_lt (after_length_le hg h) hlen)
  have hle : (after max turns data k).room max ≤ max.toNat := min_le_left _ _
  rw [after_succ h]
  rcases iterate_cases max (after max turns data k) (turns k) (hg k) with
    ⟨hcl, -⟩ | ⟨-, space, hspace, hpos, heq⟩
  · rw [hopen] at hcl
    cases hcl
  · refine ⟨(after max turns data k).data.take space, ?_, ?_, ?_⟩
    · rw [heq]
      split <;> rfl
    · rw [ne_eq, List.take_eq_nil_iff]
      have := hpos hroom
      rintro (h0 | h0)
      · omega
      · exact hd h0
    · rw [List.length_take]
      omega

/-- Data of 2^32 bytes and more never comes to its end: the packets reach down to a multiple
of 2^32 and become empty. -/
theorem never_ends (max : UInt32) (hlen : 2 ^ 32 ≤ data.length) (hg : Grants turns)
    (hopen : ∀ k, (turns k).win.closed = false) (hok : ∀ k, (turns k).ok = true) (k : Nat) :
    (after max turns data k).err = none ∧ 2 ^ 32 ≤ (after max turns data k).data.length := by
  induction k with
  | zero => exact ⟨rfl, hlen⟩
  | succ k ih =>
    obtain ⟨he, hle⟩ := ih
    have hd : (after max turns data k).data ≠ [] := by
      intro h0
      rw [h0] at hle
      exact absurd hle (by decide)
    rw [after_succ (going_iff.mpr ⟨he, hd⟩)]
    rcases iterate_cases max (after max turns data k) (turns k) (hg k) with
      ⟨hcl, -⟩ | ⟨-, space, hspace, -, heq⟩
    · rw [hopen k] at hcl
      cases hcl
    · have hroom := room_le max (after max turns data k)
      rw [heq, hok k]
      refine ⟨he, ?_⟩
      simp only [if_true, List.length_drop, List.length_take]
      omega

end Loop

/-- `Write` makes progress and is complete, whatever the window grants, exactly for data of
less than 2^32 bytes. -/
theorem write_completes (data : List UInt8) (max : UInt32) (hmax : minPacketLength ≤ max) :
    (∀ turns, Grants turns → Completes max turns data) ↔ data.length < 2 ^ 32 := by
  have hpos : 0 < max.toNat :=
    Nat.lt_of_lt_of_le (by decide) (UInt32.le_iff_toNat_le.mp hmax)
  constructor
  · intro h
    by_contra hlen
    let turns : Nat → Turn := fun _ => ⟨{ win := 1 }, true⟩
    have hg : Grants turns := fun k => by simp [turns]
    obtain ⟨k, -, hstop⟩ := (h turns hg).ends
    obtain ⟨he, hle⟩ := never_ends max (Nat.le_of_not_lt hlen) hg (fun _ => rfl)
      (fun _ => rfl) k
    have hd : (after max turns data k).data ≠ [] := by
      intro h0
      rw [h0] at hle
      exact absurd hle (by decide)
    rw [going_iff.mpr ⟨he, hd⟩] at hstop
    cases hstop
  · intro hlen turns hg
    refine ⟨fun k => progress hpos hlen hg k, ⟨data.length, Nat.le_refl _, ?_⟩, fun k hstop he => ?_⟩
    · by_contra h
      have hgo : (after max turns data data.length).going = true := by simpa using h
      have hle := after_decreases hpos hlen hg data.length hgo
      have hne := List.length_pos_iff.mpr (going_iff.mp hgo).2
      omega
    · obtain ⟨hn, hs⟩ := after_split hg k he
      have hd : (after max turns data k).data = [] := by
        by_contra hd
        rw [going_iff.mpr ⟨he, hd⟩] at hstop
        cases hstop
      rw [hd] at hn hs
      exact ⟨hn, by rwa [List.append_nil] at hs⟩

/-- A window that gives two bytes at a time. -/
theorem write_completes_run : ∃ turns, Grants turns ∧ Completes 9 turns [1, 2, 3] ∧
    (after 9 turns [1, 2, 3] 2).sent = [[1, 2], [3]] :=
  have hg : Grants fun _ => ⟨{ win := 2 }, true⟩ := fun _ => by simp
  ⟨_, hg, (write_completes [1, 2, 3] 9 (by decide)).mpr (by decide) _ hg, by decide⟩

/-- 2^32 bytes, on a window that always has some. -/
theorem long_write_hangs : ¬ ∀ (data : List UInt8) (max : UInt32), data.length < 2 ^ 63 →
    minPacketLength ≤ max → ∀ turns, Grants turns → Completes max turns data := by
  intro h
  have hlen : (List.replicate (2 ^ 32) (0 : UInt8)).length = 2 ^ 32 := List.length_replicate
  have hall := h (List.replicate (2 ^ 32) 0) 9 (by rw [hlen]; decide) (by decide)
  let turns : Nat → Turn := fun _ => ⟨{ win := 1 }, true⟩
  have hg : Grants turns := fun k => by simp [turns]
  obtain ⟨k, -, hstop⟩ := (hall turns hg).ends
  obtain ⟨he, hle⟩ := never_ends 9 (Nat.le_of_eq hlen.symm) hg (fun _ => rfl)
    (fun _ => rfl) k
  have hd : (after 9 turns (List.replicate (2 ^ 32) 0) k).data ≠ [] := by
    intro h0
    rw [h0] at hle
    exact absurd hle (by decide)
  rw [going_iff.mpr ⟨he, hd⟩] at hstop
  cases hstop

end Writing

/-- A call in progress, at the head of its loop. -/
def WriteCall.writing (w : WriteCall) : Writing := { data := w.data, n := w.done.length }

/-- The cuts of the channel model make up the loop: where `reserve` lets a `Write` go on,
`reserve` and `sendData` are one iteration, which ends the call exactly if it has an error. -/
theorem Channel.iterates {ch ch' : Channel} {k : Nat} {w : WriteCall} (ok : Bool)
    (hk : ch.writes[k]? = some w) (hg : w.granted = none) (hd : w.data ≠ [])
    (hopen : ch.remoteWin.closed = false) (hr : ch.reserve k = some ch') :
    ∃ r, ch'.sendData k ok = some r ∧
      r.2.map body = (w.writing.iterate ch.maxRemotePayload ⟨ch.remoteWin, ok⟩).sent ∧
      (ok = false → r.1.wrote = ch.wrote ++ [w.done]) ∧
      (ok = true → ∃ w', r.1.writes[k]? = some w' ∧ w'.granted = none ∧
        w'.writing = { w.writing.iterate ch.maxRemotePayload ⟨ch.remoteWin, ok⟩ with sent := [] }) := by
  obtain ⟨hlt, -⟩ := List.getElem?_eq_some_iff.mp hk
  simp only [reserve, hk, bind, Option.bind_some, hg, Option.isSome_none] at hr
  rw [if_neg (by decide), if_neg hd] at hr
  obtain ⟨⟨g, closed, win⟩, hres, hr⟩ := Option.bind_eq_some_iff.mp hr
  have hcl : closed = false := (Window.reserve_eq_some hres).2.2.1.trans hopen
  rw [hcl] at hres hr
  cases hr
  have hget : (ch.writes.set k { w with granted := some g })[k]? = some { w with granted := some g } := by
    rw [List.getElem?_set_self hlt]
  have hiter : w.writing.iterate ch.maxRemotePayload ⟨ch.remoteWin, ok⟩ =
      if ok then
        { data := w.data.drop (w.data.take g.toNat).length
          n := w.done.length + (w.data.take g.toNat).length
          sent := [w.data.take g.toNat] }
      else
        { data := w.data, n := w.done.length, err := some .encode, sent := [w.data.take g.toNat] } := by
    simp only [Writing.iterate, WriteCall.writing, hres]
    rfl
  cases ok with
  | false =>
    refine ⟨_, by simp [sendData, hget]; rfl, ?_, fun _ => rfl, by simp⟩
    rw [hiter]
    rfl
  | true =>
    refine ⟨_, by simp only [sendData, hget, bind, Option.bind_some]; rfl, ?_, by simp, fun _ => ?_⟩
    · rw [hiter]
      rfl
    · refine ⟨_, List.getElem?_set_self (by simpa using hlt), rfl, ?_⟩
      rw [hiter]
      simp [WriteCall.writing]

end Qtalk.Mux
