import Mathlib.Algebra.BigOperators.Group.List.Basic
import Mathlib.Algebra.Order.Ring.Nat

/-!
# Byte readers

The `io.Reader` contract as a function on an explicit state: a call asks for a
number of bytes and reports some of them, or an error. `fullReader` fills every
request or fails; `cutReader` delivers the same stream but answers each request
with as few bytes as an arbitrary schedule of cuts says, which is all the contract
promises. A caller that hands over a zeroed buffer and ignores the count sees
`fillBuffer`.
-/

namespace Qtalk.Lib

/-- What a reader reports in place of bytes. -/
inductive ReadError where
  | eof
  | unexpectedEOF
  /-- No byte will come unless somebody else acts. -/
  | blocked
  deriving DecidableEq, Repr

/-- One `Read` call with a buffer of the given length. -/
abbrev Reader (σ : Type) := Nat → σ → Except ReadError (List UInt8) × σ

/-- A zeroed buffer of length `n` after a `Read` into it returned `bs`. -/
def fillBuffer (n : Nat) (bs : List UInt8) : List UInt8 :=
  (bs ++ List.replicate n 0).take n

@[simp] theorem fillBuffer_length (n : Nat) (bs : List UInt8) : (fillBuffer n bs).length = n := by
  simp [fillBuffer]

/-- The bytes read stand at the front, zeros behind them. -/
theorem fillBuffer_eq {n : Nat} {bs : List UInt8} (h : bs.length ≤ n) :
    fillBuffer n bs = bs ++ List.replicate (n - bs.length) 0 := by
  rw [fillBuffer, List.take_append, List.take_of_length_le h, List.take_replicate,
    Nat.min_eq_left (Nat.sub_le n bs.length)]

@[simp] theorem fillBuffer_full (bs : List UInt8) : fillBuffer bs.length bs = bs := by
  simp [fillBuffer]

/-- A buffer that was filled up to `k` only. -/
theorem fillBuffer_cut {n k : Nat} {s : List UInt8} (hk : k ≤ n) (hs : k ≤ s.length) :
    fillBuffer n (s.take k) = s.take k ++ List.replicate (n - k) 0 := by
  have hl : (s.take k).length = k := by simp [hs]
  rw [fillBuffer_eq (by omega), hl]

/-- A string that repeats itself behind leading zeros, as far as it goes, is zero. -/
theorem late_zeros {a k N : Nat} {d : List UInt8} (ha : 0 < a) (hd : d.length = N)
    (h : d = (List.replicate a 0 ++ d).take k ++ List.replicate (N - k) 0) :
    d = List.replicate N 0 := by
  have zero : ∀ (i : Nat) (x : UInt8), d[i]? = some x → x = 0 := by
    intro i
    induction i using Nat.strongRecOn with
    | ind i ih =>
      intro x hx
      rw [h, List.getElem?_append, List.getElem?_take, List.getElem?_append] at hx
      split at hx
      · split at hx
        · split at hx
          · exact List.eq_of_mem_replicate (List.mem_of_getElem? hx)
          · rw [List.length_replicate] at hx
            -- the byte stood `a` places earlier as well
            exact ih (i - a) (by simp at *; omega) x hx
        · cases hx
      · exact List.eq_of_mem_replicate (List.mem_of_getElem? hx)
  rw [List.eq_replicate_iff]
  refine ⟨hd, fun x hx => ?_⟩
  obtain ⟨i, hi⟩ := List.getElem?_of_mem hx
  exact zero i x hi

/-- What is left after `k` bytes, when the bytes behind them are known. -/
theorem drop_eq_of_take {k : Nat} {s b : List UInt8} (h : s = s.take k ++ b) : s.drop k = b := by
  have := (List.take_append_drop k s).trans h
  exact List.append_cancel_left this

/-- The bytes a lagging read of `d` leaves: the zeros it missed, then the rest. -/
theorem drop_late {a k N : Nat} {d s : List UInt8} (hd : d.length = N) (hk : k ≤ N)
    (h : d = (List.replicate a 0 ++ (d ++ s)).take k ++ List.replicate (N - k) 0) :
    (List.replicate a 0 ++ (d ++ s)).drop k = List.replicate (a + N - k) 0 ++ s := by
  rw [← List.append_assoc] at h ⊢
  rw [List.take_append_of_le_length (by simp; omega)] at h
  rw [List.drop_append_of_le_length (by simp; omega)]
  congr 1
  rcases Nat.eq_zero_or_pos a with rfl | ha
  · rw [List.replicate_zero, List.nil_append] at h ⊢
    rw [drop_eq_of_take h, Nat.zero_add]
  · rw [late_zeros ha hd h, List.replicate_append_replicate, List.drop_replicate]

/-- The reader that fills each buffer, or fails where the stream has too few bytes
left. -/
def fullReader : Reader (List UInt8) := fun n s =>
  if n ≤ s.length then (.ok (s.take n), s.drop n)
  else (.error (if s = [] then .eof else .unexpectedEOF), [])

theorem fullReader_append (a s : List UInt8) : fullReader a.length (a ++ s) = (.ok a, s) := by
  simp [fullReader]

theorem fullReader_cons (b : UInt8) (s : List UInt8) : fullReader 1 (b :: s) = (.ok [b], s) :=
  fullReader_append [b] s

theorem fullReader_nil {n : Nat} (hn : 0 < n) : fullReader n [] = (.error .eof, []) := by
  simp [fullReader, Nat.ne_of_gt hn]

theorem fullReader_ok {n : Nat} {s a s' : List UInt8} (h : fullReader n s = (.ok a, s')) :
    s = a ++ s' ∧ a.length = n := by
  unfold fullReader at h
  split at h
  · next hn =>
    simp only [Prod.mk.injEq, Except.ok.injEq] at h
    obtain ⟨rfl, rfl⟩ := h
    exact ⟨(List.take_append_drop n s).symm, by simp [hn]⟩
  · simp at h

theorem fullReader_short {n : Nat} {s : List UInt8} (h : s.length < n) :
    ∃ e, fullReader n s = (.error e, []) := by
  exact ⟨_, by rw [fullReader, if_neg (by omega)]⟩

/-- A stream and how it will be cut: `cuts k` is how many bytes the transport has
ready at the `k`-th call that wants some. -/
structure Cut where
  stream : List UInt8
  cuts : Nat → Nat

/-- How many bytes a call for `n ≥ 1` bytes gets from a non-empty stream: at least
one, and no more than asked for or left. -/
def Cut.count (c : Cut) (n : Nat) : Nat :=
  max 1 (min (c.cuts 0) (min n c.stream.length))

/-- The cut stream after a call took `k` bytes. -/
def Cut.take (c : Cut) (k : Nat) : Cut :=
  { stream := c.stream.drop k, cuts := fun i => c.cuts (i + 1) }

/-- The reader of the `io.Reader` contract: any count from one up. -/
def cutReader : Reader Cut := fun n c =>
  if n = 0 then (.ok [], c)
  else if c.stream = [] then (.error .eof, c)
  else (.ok (c.stream.take (c.count n)), c.take (c.count n))

@[simp] theorem cutReader_zero (c : Cut) : cutReader 0 c = (.ok [], c) := rfl

theorem cutReader_none {n : Nat} (c : Cut) (hn : n = 0) : cutReader n c = (.ok [], c) :=
  hn ▸ cutReader_zero c

theorem cutReader_nil {n : Nat} {c : Cut} (hn : 0 < n) (hs : c.stream = []) :
    cutReader n c = (.error .eof, c) := by
  simp [cutReader, hs, Nat.ne_of_gt hn]

theorem cutReader_pos {n : Nat} {c : Cut} (hn : 0 < n) (hs : c.stream ≠ []) :
    cutReader n c = (.ok (c.stream.take (c.count n)), c.take (c.count n)) := by
  simp [cutReader, hs, Nat.ne_of_gt hn]

theorem Cut.count_le {c : Cut} {n : Nat} (hn : 0 < n) : c.count n ≤ n := by
  unfold Cut.count; omega

theorem Cut.count_le_length {c : Cut} {n : Nat} (hs : c.stream ≠ []) :
    c.count n ≤ c.stream.length := by
  have := List.length_pos_iff.mpr hs
  unfold Cut.count; omega

/-- A request is answered in full exactly when the transport has enough ready. -/
theorem Cut.count_eq {c : Cut} {n : Nat} (hn : 0 < n) (hl : n ≤ c.stream.length) :
    c.count n = n ↔ n ≤ max 1 (c.cuts 0) := by
  unfold Cut.count; omega

end Qtalk.Lib
