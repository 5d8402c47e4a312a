import Qtalk.Js.Util
import Qtalk.Lib.Runs

/-!
# Pushes meet shifts

Any interleaving of `push`, `shift` and `close` on a `queue` of `javascript/mux/util.ts`. The calls
of `shift` are numbered, and the number of a call stands for its `resolve`. While the queue is
open the calls are resolved in their order, with the objects in the order of the pushes: `q` holds
the objects whose call is still to come, `waiters` the calls whose object is. `close` ends that,
and what is left in `q` then is lost.
-/

namespace Qtalk.Js
open Qtalk.Lib

/-- A queue, and what its callers did and got. -/
structure Rendezvous (α : Type) where
  queue : Queue α Nat := .new
  -- history
  /-- the objects of the pushes that did not throw -/
  pushed : List α := []
  /-- the objects of those that did -/
  thrown : List α := []
  /-- how many calls of `shift` were made -/
  calls : Nat := 0
  /-- how many had been made at `close` -/
  callsBefore : Option Nat := none
  /-- the promises of `shift` that were resolved, and with what -/
  resolved : List (Nat × Option α) := []
  deriving DecidableEq, Repr

namespace Rendezvous

variable {α : Type}

inductive Act (α : Type) where
  | push (obj : α)
  | shift
  | close
  deriving DecidableEq, Repr

def push (s : Rendezvous α) (obj : α) : Rendezvous α :=
  match s.queue.push obj with
  | none => { s with thrown := s.thrown ++ [obj] }
  | some (queue, waiter) =>
    { s with
      queue
      pushed := s.pushed ++ [obj]
      resolved := s.resolved ++ waiter.toList.map fun k => (k, some obj) }

def shift (s : Rendezvous α) : Rendezvous α :=
  let (queue, v) := s.queue.shift s.calls
  { s with queue, calls := s.calls + 1, resolved := s.resolved ++ v.toList.map fun v => (s.calls, v) }

def close (s : Rendezvous α) : Rendezvous α :=
  let (queue, waiters) := s.queue.close
  { s with
    queue
    callsBefore := s.callsBefore.or (some s.calls)
    resolved := s.resolved ++ waiters.map fun k => (k, none) }

def next (s : Rendezvous α) : Act α → Option (Rendezvous α)
  | .push obj => some (s.push obj)
  | .shift => some s.shift
  | .close => some s.close

/-- What the callers see. -/
structure Fifo (s : Rendezvous α) : Prop where
  oneEmpty : s.queue.closed = false → s.queue.q = [] ∨ s.queue.waiters = []
  /-- a promise is resolved once -/
  once : (s.resolved.map Prod.fst).Nodup
  /-- the call with number `k` gets the object pushed with number `k`, as soon as both are there -/
  inOrder : s.queue.closed = false → s.thrown = [] ∧
    ∀ k v, (k, v) ∈ s.resolved ↔ k < s.calls ∧ ∃ a, s.pushed[k]? = some a ∧ v = some a
  /-- of a closed queue every call is resolved, with undefined but for those before `close` that have
  their object, and a push throws and does nothing else -/
  afterClose : s.queue.closed = true → ∃ n, s.callsBefore = some n ∧ n ≤ s.calls ∧
    (∀ k v, (k, v) ∈ s.resolved ↔ k < s.calls ∧ v = if k < n then s.pushed[k]? else none) ∧
    ∀ obj, s.push obj = { s with thrown := s.thrown ++ [obj] }

/-! ## What is kept -/

/-- While the queue is open. -/
structure Open (s : Rendezvous α) : Prop where
  closed : s.queue.closed = false
  before : s.callsBefore = none
  q : s.queue.q = s.pushed.drop s.calls
  waiters : s.queue.waiters = (List.range s.calls).drop s.pushed.length
  thrown : s.thrown = []
  resolved : s.resolved = (List.range (min s.pushed.length s.calls)).map fun k => (k, s.pushed[k]?)

/-- Once it is closed, after `n` calls of `shift`. -/
structure Closed (s : Rendezvous α) (n : Nat) : Prop where
  closed : s.queue.closed = true
  before : s.callsBefore = some n
  le : n ≤ s.calls
  resolved : s.resolved = (List.range s.calls).map fun k => (k, if k < n then s.pushed[k]? else none)

theorem Open.start : Open ({} : Rendezvous α) := ⟨rfl, rfl, rfl, rfl, rfl, rfl⟩

theorem map_push (pushed : List α) (obj : α) {n : Nat} (h : n ≤ pushed.length) :
    (List.range n).map (fun k => (k, (pushed ++ [obj])[k]?)) =
      (List.range n).map fun k => (k, pushed[k]?) := by
  refine List.map_congr_left fun k hk => ?_
  rw [List.getElem?_append_left (Nat.lt_of_lt_of_le (List.mem_range.mp hk) h)]

/-- The object goes to the first call that waits, or else into the queue. -/
theorem Open.push {s : Rendezvous α} (h : s.Open) (obj : α) : (s.push obj).Open := by
  rw [Rendezvous.push, Queue.push, h.closed, if_neg Bool.false_ne_true]
  rcases Nat.lt_or_ge s.pushed.length s.calls with hlt | hge
  · have hwaiters : s.queue.waiters
        = s.pushed.length :: (List.range s.calls).drop (s.pushed.length + 1) := by
      rw [h.waiters, List.drop_eq_getElem_cons (by rwa [List.length_range]), List.getElem_range]
    rw [hwaiters]
    refine ⟨rfl, h.before, ?_, ?_, h.thrown, ?_⟩
    · dsimp only
      rw [h.q, List.drop_eq_nil_of_le (Nat.le_of_lt hlt),
        List.drop_eq_nil_of_le (by rw [List.length_append]; exact hlt)]
    · dsimp only
      rw [List.length_append, List.length_singleton]
    · dsimp only [Option.toList, List.map]
      rw [h.resolved, List.length_append, List.length_singleton, Nat.min_eq_left (Nat.le_of_lt hlt),
        Nat.min_eq_left hlt, List.range_succ, List.map_append, map_push _ _ (Nat.le_refl _)]
      simp
  · have hwaiters : s.queue.waiters = [] := by
      rw [h.waiters, List.drop_eq_nil_of_le (by rwa [List.length_range])]
    rw [hwaiters]
    refine ⟨rfl, h.before, ?_, ?_, h.thrown, ?_⟩
    · dsimp only
      rw [h.q, List.drop_append_of_le_length hge]
    · dsimp only
      rw [List.drop_eq_nil_of_le]
      rw [List.length_range, List.length_append]
      omega
    · dsimp only [Option.toList, List.map]
      rw [h.resolved, List.append_nil, List.length_append, List.length_singleton,
        Nat.min_eq_right hge, Nat.min_eq_right (by omega), map_push _ _ hge]

/-- The call gets the first object, or else waits. -/
theorem Open.shift {s : Rendezvous α} (h : s.Open) : s.shift.Open := by
  rw [Rendezvous.shift, Queue.shift, h.closed, if_neg Bool.false_ne_true]
  rcases Nat.lt_or_ge s.calls s.pushed.length with hlt | hge
  · have hq : s.queue.q = s.pushed[s.calls] :: s.pushed.drop (s.calls + 1) := by
      rw [h.q, List.drop_eq_getElem_cons hlt]
    rw [hq]
    refine ⟨rfl, h.before, rfl, ?_, h.thrown, ?_⟩
    · dsimp only
      rw [h.waiters, List.drop_eq_nil_of_le (by rw [List.length_range]; exact Nat.le_of_lt hlt),
        List.drop_eq_nil_of_le (by rwa [List.length_range])]
    · dsimp only [Option.toList, List.map]
      rw [h.resolved, Nat.min_eq_right (Nat.le_of_lt hlt), Nat.min_eq_right hlt, List.range_succ,
        List.map_append, List.map_singleton, List.getElem?_eq_getElem hlt]
  · have hq : s.queue.q = [] := by rw [h.q, List.drop_eq_nil_of_le hge]
    rw [hq]
    refine ⟨rfl, h.before, ?_, ?_, h.thrown, ?_⟩
    · dsimp only
      rw [List.drop_eq_nil_of_le (by omega)]
    · dsimp only
      rw [h.waiters, List.range_succ, List.drop_append_of_le_length (by rwa [List.length_range])]
    · dsimp only [Option.toList, List.map]
      rw [h.resolved, List.append_nil, Nat.min_eq_left hge, Nat.min_eq_left (by omega)]

/-- The calls that wait are resolved with undefined. -/
theorem Open.close {s : Rendezvous α} (h : s.Open) : s.close.Closed s.calls := by
  rw [Rendezvous.close, Queue.close, h.closed, if_neg Bool.false_ne_true]
  refine ⟨rfl, ?_, Nat.le_refl _, ?_⟩
  · dsimp only
    rw [h.before]
    rfl
  · have hserved : (List.range (min s.pushed.length s.calls)).map (fun k => (k, s.pushed[k]?)) =
        ((List.range s.calls).take s.pushed.length).map fun k =>
          (k, if k < s.calls then s.pushed[k]? else none) := by
      rw [List.take_range]
      refine List.map_congr_left fun k hk => ?_
      have hlt := List.mem_range.mp hk
      rw [if_pos (by omega)]
    have hwaiting : ((List.range s.calls).drop s.pushed.length).map (fun k => (k, (none : Option α))) =
        ((List.range s.calls).drop s.pushed.length).map fun k =>
          (k, if k < s.calls then s.pushed[k]? else none) := by
      refine List.map_congr_left fun k hk => ?_
      obtain ⟨i, hi, rfl⟩ := List.getElem_of_mem hk
      rw [List.getElem_drop, List.getElem_range, List.getElem?_eq_none (Nat.le_add_right _ _), ite_self]
    dsimp only
    rw [h.resolved, h.waiters, hserved, hwaiting, ← List.map_append, List.take_append_drop]

/-- A closed queue answers with undefined, and takes nothing. -/
theorem Closed.push_eq {s : Rendezvous α} {n : Nat} (h : s.Closed n) (obj : α) :
    s.push obj = { s with thrown := s.thrown ++ [obj] } := by
  rw [Rendezvous.push, Queue.push, h.closed, if_pos rfl]

theorem Closed.push {s : Rendezvous α} {n : Nat} (h : s.Closed n) (obj : α) : (s.push obj).Closed n := by
  rw [h.push_eq]
  exact ⟨h.closed, h.before, h.le, h.resolved⟩

theorem Closed.shift {s : Rendezvous α} {n : Nat} (h : s.Closed n) : s.shift.Closed n := by
  rw [Rendezvous.shift, Queue.shift, h.closed, if_pos rfl]
  refine ⟨h.closed, h.before, Nat.le_succ_of_le h.le, ?_⟩
  dsimp only [Option.toList, List.map]
  rw [h.resolved, List.range_succ, List.map_append, List.map_singleton, if_neg (Nat.not_lt_of_le h.le)]

theorem Closed.close {s : Rendezvous α} {n : Nat} (h : s.Closed n) : s.close.Closed n := by
  rw [Rendezvous.close, Queue.close, h.closed, if_pos rfl]
  refine ⟨h.closed, ?_, h.le, ?_⟩
  · dsimp only
    rw [h.before]
    rfl
  · dsimp only [List.map]
    rw [List.append_nil]
    exact h.resolved

theorem step {s s' : Rendezvous α} {a : Act α} (h : s.Open ∨ ∃ n, s.Closed n) (hn : s.next a = some s') :
    s'.Open ∨ ∃ n, s'.Closed n := by
  rcases h with h | ⟨n, h⟩
  · cases a with
    | push obj =>
      cases hn
      exact .inl (h.push obj)
    | shift =>
      cases hn
      exact .inl h.shift
    | close =>
      cases hn
      exact .inr ⟨s.calls, h.close⟩
  · refine .inr ⟨n, ?_⟩
    cases a with
    | push obj =>
      cases hn
      exact h.push obj
    | shift =>
      cases hn
      exact h.shift
    | close =>
      cases hn
      exact h.close

/-! ## What the callers see -/

theorem nodup_numbers (n : Nat) (f : Nat → Option α) :
    (((List.range n).map fun k => (k, f k)).map Prod.fst).Nodup := by
  rw [List.map_map]
  exact (List.map_id (List.range n)).symm ▸ List.nodup_range

theorem mem_numbered {n k : Nat} {f : Nat → Option α} {v : Option α} :
    (k, v) ∈ (List.range n).map (fun k => (k, f k)) ↔ k < n ∧ v = f k := by
  rw [List.mem_map]
  constructor
  · rintro ⟨i, hi, heq⟩
    cases heq
    exact ⟨List.mem_range.mp hi, rfl⟩
  · rintro ⟨hk, rfl⟩
    exact ⟨k, List.mem_range.mpr hk, rfl⟩

theorem Open.fifo {s : Rendezvous α} (h : s.Open) : s.Fifo := by
  refine ⟨fun _ => ?_, ?_, fun _ => ⟨h.thrown, fun k v => ?_⟩, fun hc => ?_⟩
  · rw [h.q, h.waiters]
    rcases Nat.le_total s.pushed.length s.calls with hle | hle
    · exact .inl (List.drop_eq_nil_of_le hle)
    · exact .inr (List.drop_eq_nil_of_le (by rwa [List.length_range]))
  · rw [h.resolved]
    exact nodup_numbers _ _
  · rw [h.resolved, mem_numbered, Nat.lt_min]
    constructor
    · rintro ⟨⟨hpushed, hcalls⟩, rfl⟩
      exact ⟨hcalls, _, List.getElem?_eq_getElem hpushed, List.getElem?_eq_getElem hpushed⟩
    · rintro ⟨hcalls, a, ha, rfl⟩
      obtain ⟨hpushed, -⟩ := List.getElem?_eq_some_iff.mp ha
      exact ⟨⟨hpushed, hcalls⟩, ha.symm⟩
  · rw [h.closed] at hc
    cases hc

theorem Closed.fifo {s : Rendezvous α} {n : Nat} (h : s.Closed n) : s.Fifo := by
  refine ⟨fun hc => ?_, ?_, fun hc => ?_, fun _ => ⟨n, h.before, h.le, fun k v => ?_, h.push_eq⟩⟩
  · rw [h.closed] at hc
    cases hc
  · rw [h.resolved]
    exact nodup_numbers _ _
  · rw [h.closed] at hc
    cases hc
  · rw [h.resolved]
    exact mem_numbered

/-- **The queue is a FIFO rendezvous.** In every run the calls of `shift` get the objects pushed, by
their numbers, until `close`, and undefined from then on. -/
theorem queue_fifo {s : Rendezvous α} (run : Run next anyStep {} s) : s.Fifo := by
  have h : s.Open ∨ ∃ n, s.Closed n :=
    run.invariant (I := fun s => s.Open ∨ ∃ n, s.Closed n) (.inl .start) fun _ _ _ _ h _ hn => step h hn
  rcases h with h | ⟨n, h⟩
  · exact h.fifo
  · exact h.fifo

/-- Two calls come before the objects, one is left over at `close`. -/
theorem queue_fifo_run : ∃ s : Rendezvous Char, s.Fifo ∧
    s.resolved = [(0, some 'a'), (1, some 'b'), (2, none), (3, none)] ∧ s.thrown = ['c'] := by
  obtain ⟨s, run, hs⟩ := Run.of_exec next anyStep ({} : Rendezvous Char)
    [.shift, .push 'a', .push 'b', .shift, .shift, .close, .push 'c', .shift]
    (fun s => decide (s.resolved = [(0, some 'a'), (1, some 'b'), (2, none), (3, none)] ∧
      s.thrown = ['c'])) (by decide)
  exact ⟨s, queue_fifo run, of_decide_eq_true hs⟩

end Rendezvous

end Qtalk.Js
