import Qtalk.Lib.Runs
import Qtalk.Mux.Util

/-!
# Readers of the buffer

Any number of `buffer.Read` calls on one buffer, with the condition variable of
`golang/mux/util.go`: a reader that finds nothing waits, `write` and `eof` call `Signal`, and a
reader that was woken runs some time later. Both `Signal` once and no reader signals on its way
out, so the wake-up is lost on a reader that leaves something behind.
-/

namespace Qtalk.Mux
open Qtalk.Lib

/-- Where a `Read` stands. -/
inductive ReaderPhase where
  /-- it has not yet the lock -/
  | entering
  /-- inside `b.Cond.Wait()` -/
  | parked
  /-- a `Signal` has reached it, and it has not yet the lock again -/
  | woken
  | returned (bs : List UInt8) (eof : Bool)
  deriving DecidableEq, Repr

/-- A `Read` into a buffer of length `size`. -/
structure BufferReader where
  size : Nat
  phase : ReaderPhase := .entering
  deriving DecidableEq, Repr

/-- A buffer and the calls of `Read` on it. -/
structure Readers where
  b : Buffer := {}
  readers : List BufferReader := []

namespace Readers

def Parked (s : Readers) : Prop := ∃ r ∈ s.readers, r.phase = .parked

def Woken (s : Readers) : Prop := ∃ r ∈ s.readers, r.phase = .woken

/-- A `Read` has something to return. -/
def Ready (b : Buffer) : Prop := b.content ≠ [] ∨ b.closed = true

/-- Whoever waits while there is something to return, a wake-up is on its way. -/
def Awake (s : Readers) : Prop := s.Parked → Ready s.b → s.Woken

instance (b : Buffer) : Decidable (Ready b) := inferInstanceAs (Decidable (_ ∨ _))
instance (s : Readers) : Decidable s.Parked := inferInstanceAs (Decidable (∃ r ∈ s.readers, _))
instance (s : Readers) : Decidable s.Woken := inferInstanceAs (Decidable (∃ r ∈ s.readers, _))
instance (s : Readers) : Decidable s.Awake := inferInstanceAs (Decidable (_ → _ → _))

/-- `Signal`: it wakes one of the waiting readers, whichever, if there is one. -/
def signal (s : Readers) : Option Nat → Option Readers
  | none => if s.Parked then none else some s
  | some k => do
    let r ← s.readers[k]?
    if r.phase = .parked then some { s with readers := s.readers.set k { r with phase := .woken } }
    else none

/-- `Read` with the lock, to its return or to its next `Wait`. -/
def attempt (s : Readers) (k : Nat) (r : BufferReader) : Readers :=
  match s.b.Read r.size with
  | .bytes bs b => { b, readers := s.readers.set k { r with phase := .returned bs false } }
  | .eof => { s with readers := s.readers.set k { r with phase := .returned [] true } }
  | .wait => { s with readers := s.readers.set k { r with phase := .parked } }

inductive Act where
  /-- a goroutine calls `Read` -/
  | read (size : Nat)
  /-- reader `k` takes the lock -/
  | enter (k : Nat)
  /-- reader `k`: `b.Cond.Wait()` returns with the lock -/
  | recheck (k : Nat)
  /-- `write`; the signal goes to `pick` -/
  | write (buf : List UInt8) (pick : Option Nat)
  | eof (pick : Option Nat)
  deriving DecidableEq, Repr

def next (s : Readers) : Act → Option Readers
  | .read size => some { s with readers := s.readers ++ [{ size }] }
  | .enter k => do
    let r ← s.readers[k]?
    if r.phase = .entering then some (s.attempt k r) else none
  | .recheck k => do
    let r ← s.readers[k]?
    if r.phase = .woken then some (s.attempt k r) else none
  | .write buf pick => { s with b := s.b.write buf }.signal pick
  | .eof pick => { s with b := s.b.eof }.signal pick

/-- Another reader than `k` is woken. -/
def OtherWoken (s : Readers) (k : Nat) : Prop := ∃ r ∈ s.readers.eraseIdx k, r.phase = .woken

instance (s : Readers) (k : Nat) : Decidable (s.OtherWoken k) :=
  inferInstanceAs (Decidable (∃ r ∈ s.readers.eraseIdx k, _))

/-- While others wait, the last woken reader goes on only if it takes all there is, from a
buffer that is open. -/
def Passes (s : Readers) : Act → Prop
  | .recheck k => s.Parked → s.OtherWoken k ∨
      s.b.closed = false ∧ ∀ r ∈ s.readers[k]?, s.b.content.length ≤ r.size
  | _ => True

instance (s : Readers) (a : Act) : Decidable (s.Passes a) := by
  cases a <;> simp only [Passes] <;> infer_instance

/-! ## One reader moves -/

section
variable {s : Readers} {k : Nat} {r r' : BufferReader} {P : BufferReader → Prop}

theorem exists_split (hk : s.readers[k]? = some r) :
    (∃ x ∈ s.readers, P x) ↔ P r ∨ ∃ x ∈ s.readers.eraseIdx k, P x := by
  constructor
  · rintro ⟨x, hx, hp⟩
    obtain ⟨i, hi⟩ := List.getElem?_of_mem hx
    by_cases hik : i = k
    · rw [hik, hk] at hi
      cases hi
      exact .inl hp
    · exact .inr ⟨x, List.mem_eraseIdx_iff_getElem?.mpr ⟨i, hik, hi⟩, hp⟩
  · rintro (hp | ⟨x, hx, hp⟩)
    · exact ⟨r, List.mem_of_getElem? hk, hp⟩
    · exact ⟨x, List.mem_of_mem_eraseIdx hx, hp⟩

theorem exists_set (hk : s.readers[k]? = some r) :
    (∃ x ∈ s.readers.set k r', P x) ↔ P r' ∨ ∃ x ∈ s.readers.eraseIdx k, P x := by
  obtain ⟨hlt, -⟩ := List.getElem?_eq_some_iff.mp hk
  have hk' : (s.readers.set k r')[k]? = some r' := List.getElem?_set_self hlt
  rw [exists_split (s := { s with readers := s.readers.set k r' }) hk']
  dsimp only
  rw [List.eraseIdx_set_eq]

/-- A `Read` returns with the front of the bytes, or finds nothing and waits. -/
theorem attempt_cases (s : Readers) (k : Nat) (r : BufferReader) :
    (∃ b bs eof, s.attempt k r = { b, readers := s.readers.set k { r with phase := .returned bs eof } } ∧
      b.content = s.b.content.drop r.size ∧ b.closed = s.b.closed) ∨
    (¬Ready s.b ∧ s.attempt k r = { s with readers := s.readers.set k { r with phase := .parked } }) := by
  rw [attempt]
  rcases Nat.eq_zero_or_pos r.size with hz | hpos
  · refine .inl ⟨s.b, [], false, ?_, ?_, rfl⟩
    · rw [Buffer.Read, if_pos hz]
    · rw [hz, List.drop_zero]
  · by_cases hc : s.b.content = []
    · rw [Buffer.Read_empty hpos hc]
      cases hcl : s.b.closed with
      | true => exact .inl ⟨s.b, [], true, rfl, by rw [hc, List.drop_nil], hcl⟩
      | false => exact .inr ⟨not_or.mpr ⟨not_not.mpr hc, by simp [hcl]⟩, rfl⟩
    · obtain ⟨b, hr, hcontent, hcl⟩ := Buffer.Read_pos hpos hc
      rw [hr]
      exact .inl ⟨b, _, false, rfl, hcontent, hcl⟩

theorem ready_drop {b b' : Buffer} {n : Nat} (hc : b'.content = b.content.drop n)
    (hcl : b'.closed = b.closed) : Ready b' ↔ n < b.content.length ∨ b.closed = true := by
  rw [Ready, hc, hcl, ne_eq, List.drop_eq_nil_iff, Nat.not_le]

theorem awake_signal {s s' : Readers} {pick : Option Nat} (h : s.signal pick = some s') : s'.Awake := by
  cases pick with
  | none =>
    rw [signal] at h
    split at h
    · cases h
    · next hp =>
      cases h
      exact fun hparked => absurd hparked hp
  | some k =>
    obtain ⟨r, hk, h⟩ := Option.bind_eq_some_iff.mp h
    split at h
    · cases h
      exact fun _ _ => (exists_set hk).mpr (.inl rfl)
    · cases h

end

theorem awake_enter {s : Readers} {k : Nat} {r : BufferReader} (h : s.Awake) (hk : s.readers[k]? = some r)
    (hr : r.phase = .entering) : (s.attempt k r).Awake := by
  rcases attempt_cases s k r with ⟨b, bs, eof, heq, hc, hcl⟩ | ⟨hidle, heq⟩
  · rw [heq]
    intro hp hready
    have hparked : s.Parked := by
      rcases (exists_set hk).mp hp with hp | hp
      · cases hp
      · exact (exists_split hk).mpr (.inr hp)
    have hbefore : Ready s.b := by
      rcases (ready_drop hc hcl).mp hready with hlt | hclosed
      · exact .inl (List.ne_nil_of_length_pos (by omega))
      · exact .inr hclosed
    rcases (exists_split hk).mp (h hparked hbefore) with hw | hw
    · rw [hr] at hw
      cases hw
    · exact (exists_set hk).mpr (.inr hw)
  · rw [heq]
    exact fun _ hready => absurd hready hidle

theorem awake_recheck {s : Readers} {k : Nat} {r : BufferReader} (hk : s.readers[k]? = some r)
    (hr : r.phase = .woken) : (s.attempt k r).Awake ↔ s.Passes (.recheck k) := by
  have hparked : s.Parked ↔ ∃ x ∈ s.readers.eraseIdx k, x.phase = .parked := by
    rw [Parked, exists_split hk, hr]
    exact or_iff_right (by simp)
  have hsize : (∀ r ∈ s.readers[k]?, s.b.content.length ≤ r.size) ↔ s.b.content.length ≤ r.size := by
    simp [hk]
  rw [Passes, hsize]
  rcases attempt_cases s k r with ⟨b, bs, eof, heq, hc, hcl⟩ | ⟨hidle, heq⟩
  · have hparked' : (s.attempt k r).Parked ↔ s.Parked := by
      rw [heq, Parked, exists_set hk, hparked]
      exact or_iff_right (by simp)
    have hwoken' : (s.attempt k r).Woken ↔ s.OtherWoken k := by
      rw [heq, Woken, exists_set hk, OtherWoken]
      exact or_iff_right (by simp)
    have hready : Ready (s.attempt k r).b ↔ ¬(s.b.closed = false ∧ s.b.content.length ≤ r.size) := by
      rw [heq, ready_drop hc hcl, not_and_or, Nat.not_le, Bool.not_eq_false, or_comm]
    rw [Awake, hparked', hwoken', hready]
    refine forall_congr' fun _ => ?_
    rw [or_comm, Classical.or_iff_not_imp_left]
  · obtain ⟨hempty, hopen⟩ := not_or.mp hidle
    rw [heq]
    refine ⟨fun _ _ => .inr ⟨Bool.not_eq_true _ ▸ hopen, ?_⟩, fun _ _ hready => absurd hready hidle⟩
    rw [not_not.mp hempty]
    exact Nat.zero_le _

/-- A step from a good state leads to a good one exactly if it passes the wake-up on. -/
theorem awake_step {s s' : Readers} {a : Act} (h : s.Awake) (hn : s.next a = some s') :
    s'.Awake ↔ s.Passes a := by
  cases a with
  | read size =>
    cases hn
    refine iff_of_true ?_ trivial
    rintro ⟨r, hr, hp⟩ hready
    rcases List.mem_append.mp hr with hr | hr
    · obtain ⟨w, hw, hwoken⟩ := h ⟨r, hr, hp⟩ hready
      exact ⟨w, List.mem_append_left _ hw, hwoken⟩
    · rw [List.mem_singleton.mp hr] at hp
      cases hp
  | enter k =>
    obtain ⟨r, hk, hn⟩ := Option.bind_eq_some_iff.mp hn
    split at hn
    · next hr =>
      cases hn
      exact iff_of_true (awake_enter h hk hr) trivial
    · cases hn
  | recheck k =>
    obtain ⟨r, hk, hn⟩ := Option.bind_eq_some_iff.mp hn
    split at hn
    · next hr =>
      cases hn
      exact awake_recheck hk hr
    · cases hn
  | write buf pick => exact iff_of_true (awake_signal hn) trivial
  | eof pick => exact iff_of_true (awake_signal hn) trivial

theorem awake {s : Readers} (run : Run next Passes {} s) : s.Awake := by
  refine run.invariant ?_ fun s a s' _ h hok hn => (awake_step h hn).mpr hok
  rintro ⟨r, hr, -⟩
  cases hr

/-- In a run in which every wake-up is passed on no reader waits for what is there, and the next
step leaves one waiting if and only if it does not pass the wake-up on. -/
theorem no_lost_wakeup {s : Readers} (run : Run next Passes {} s) :
    s.Awake ∧ ∀ a s', s.next a = some s' → (s'.Awake ↔ s.Passes a) :=
  ⟨awake run, fun _ _ hn => awake_step (awake run) hn⟩

/-- Two readers that wait. -/
def twoParked : List Act := [.read 4, .read 1, .enter 0, .enter 1]

/-- The first reader takes the first message whole; the second is about to leave a byte of the
next one, with the first waiting again. -/
theorem no_lost_wakeup_run : ∃ s s', Run next Passes {} s ∧ s.Parked ∧ s.Awake ∧
    s.next (.recheck 1) = some s' ∧ ¬s'.Awake := by
  obtain ⟨s, run, hs⟩ := Run.of_exec next Passes {}
    (twoParked ++ [.write [1, 2, 3] (some 0), .recheck 0, .read 4, .enter 2, .write [4, 5] (some 1)])
    (fun s => decide (s.Parked ∧ (s.next (.recheck 1)).isSome = true ∧ ¬s.Passes (.recheck 1)))
    (by decide +kernel)
  simp only [decide_eq_true_eq] at hs
  obtain ⟨hparked, hnext, hpass⟩ := hs
  obtain ⟨s', hn⟩ := Option.isSome_iff_exists.mp hnext
  obtain ⟨hawake, hexact⟩ := no_lost_wakeup run
  exact ⟨s, s', run, hparked, hawake, hn, (hexact _ s' hn).not.mpr hpass⟩

/-- `eof` wakes one of two readers; it returns, and the other waits on the closed buffer. -/
theorem eof_wakes_one : ∃ s, Run next anyStep {} s ∧ s.b.closed = true ∧
    s.readers.map BufferReader.phase = [.returned [] true, .parked] ∧ ¬s.Awake := by
  obtain ⟨s, run, hs⟩ := Run.of_exec next anyStep {} (twoParked ++ [.eof (some 0), .recheck 0])
    (fun s => decide (s.b.closed = true ∧ s.readers.map BufferReader.phase = [.returned [] true, .parked] ∧
      ¬s.Awake)) (by decide +kernel)
  simp only [decide_eq_true_eq] at hs
  exact ⟨s, run, hs⟩

end Readers

end Qtalk.Mux
