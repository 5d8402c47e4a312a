import Qtalk.Transport.Listener

/-!
# Serving a listener

`Server.Serve` of `golang/rpc/server.go` on a `listener`, the only one to call its `Accept`: it
starts `Respond` for each session and returns at the first error. What one `Accept` takes from the
listener is all it takes behind the last session, so a `Close` gets it to return and a third one
blocks (`serve_returns`).
-/

namespace Qtalk.Rpc
open Qtalk.Lib Qtalk.Transport

/-- Where `Serve` is. -/
inductive Serve where
  /-- at `l.Accept()` -/
  | looping
  | accepting
  /-- `return err` -/
  | returned (r : Result)
  deriving DecidableEq, Repr

/-- A `Serve` in progress, and the sessions of `go s.Respond(sess)`. -/
structure Serving where
  l : Listening
  serve : Serve := .looping
  responding : List Nat := []
  deriving DecidableEq, Repr

namespace Serving

inductive Act where
  /-- `Serve` calls `Accept` -/
  | loop
  /-- a step of the listener -/
  | listener (a : Transport.Act)
  deriving DecidableEq, Repr

/-- What an `Accept` returns with a case of its `select`. -/
def result? : Transport.Act → Option Result
  | .takeCloser => some .eof
  | .takeErr err => some (.err err)
  | .takeSession sess => some (.sess sess)
  | _ => none

/-- `Serve` behind `l.Accept()`. -/
def got (s : Serving) : Result → Serving
  | .sess sess => { s with serve := .looping, responding := s.responding ++ [sess] }
  | r => { s with serve := .returned r }

def next (s : Serving) : Act → Option Serving
  | .loop =>
    if s.serve = .looping then (s.l.next .Accept).map fun l => { s with l, serve := .accepting } else none
  | .listener .Accept => none
  | .listener a =>
    (s.l.next a).map fun l =>
      match result? a with
      | some r => { s with l }.got r
      | none => { s with l }

/-- Steps that need nobody from outside. -/
def Internal (s : Serving) : Act → Prop
  | .loop => True
  | .listener a => s.l.Internal a

def Quiet (s : Serving) : Prop := ∀ a, s.Internal a → s.next a = none

/-- The results that `Serve` has seen. -/
def seen (s : Serving) : List Result :=
  s.responding.map .sess ++ match s.serve with
    | .returned r => [r]
    | _ => []

/-- Where the `Accept`s of `Serve` are. -/
structure Sound (s : Serving) : Prop where
  results : s.l.results = s.seen
  waiting : s.l.waiting = if s.serve = .accepting then 1 else 0
  failed : ∀ r, s.serve = .returned r → r.session? = none

/-! ## Steps -/

/-- An `Accept` returns what its case of the `select` gives; no other step changes the results. -/
theorem next_results {l l' : Listening} {a : Transport.Act} (hn : l.next a = some l') :
    match result? a with
    | some r => 0 < l.waiting ∧ l'.results = l.results ++ [r] ∧ l'.waiting = l.waiting - 1
    | none => l'.results = l.results ∧ l'.waiting = l.waiting + if a = .Accept then 1 else 0 := by
  cases a with
  | Accept | Close =>
    cases hn
    exact ⟨rfl, rfl⟩
  | takeCloser | takeErr err | takeSession sess =>
    rw [Listening.next] at hn
    split at hn
    · next hc =>
      cases hn
      exact ⟨hc.1, rfl, rfl⟩
    · cases hn
  | accept | fail err =>
    rw [Listening.next] at hn
    split at hn
    · obtain ⟨feeder, -, rfl⟩ := Option.map_eq_some_iff.mp hn
      exact ⟨rfl, rfl⟩
    · cases hn
  | connect | report | sendCloser | closeListener =>
    rw [Listening.next] at hn
    split at hn <;> cases hn
    exact ⟨rfl, rfl⟩

variable {s s' : Serving} {s₀ : Listening}

/-- The ways `Serve` and its listener move on. -/
theorem next_cases {a : Act} (hn : s.next a = some s') :
    (a = .loop ∧ s.serve = .looping ∧ ∃ l, s.l.next .Accept = some l ∧
        s' = { s with l, serve := .accepting }) ∨
      ∃ b l, a = .listener b ∧ b ≠ .Accept ∧ s.l.next b = some l ∧
        ((∃ r, result? b = some r ∧ s' = got { s with l } r) ∨
          (result? b = none ∧ s' = { s with l })) := by
  cases a with
  | loop =>
    rw [next] at hn
    split at hn
    · next hl =>
      obtain ⟨l, hl', rfl⟩ := Option.map_eq_some_iff.mp hn
      exact .inl ⟨rfl, hl, l, hl', rfl⟩
    · cases hn
  | listener b =>
    by_cases hb : b = .Accept
    · subst hb
      cases hn
    · rw [next] at hn
      · obtain ⟨l, hl, rfl⟩ := Option.map_eq_some_iff.mp hn
        refine .inr ⟨b, l, rfl, hb, hl, ?_⟩
        cases hr : result? b with
        | some r => exact .inl ⟨r, rfl, rfl⟩
        | none => exact .inr ⟨rfl, rfl⟩
      · exact hb

theorem Sound.step (h : s.Sound) {a : Act} (hn : s.next a = some s') : s'.Sound := by
  obtain ⟨results, waiting, failed⟩ := h
  rcases next_cases hn with ⟨-, hl, l, hnl, rfl⟩ | ⟨b, l, -, hb, hnl, hr⟩
  · obtain ⟨hres, hwait⟩ := next_results hnl
    refine ⟨?_, ?_, fun r hr => by cases hr⟩
    · rw [hres, results, seen, seen, hl]
    · rw [hwait, waiting, hl]
      rfl
  · have heff := next_results hnl
    rcases hr with ⟨r, hr, rfl⟩ | ⟨hr, rfl⟩
    · rw [hr] at heff
      obtain ⟨hpos, hres, hwait⟩ := heff
      have hacc : s.serve = .accepting := by
        by_contra hne
        rw [waiting, if_neg hne] at hpos
        exact absurd hpos (Nat.lt_irrefl 0)
      rw [waiting, if_pos hacc] at hwait
      rw [results, seen, hacc, List.append_nil] at hres
      cases r with
      | sess sess =>
        refine ⟨?_, hwait, fun r hr => by cases hr⟩
        show l.results = (s.responding ++ [sess]).map .sess ++ []
        rw [hres, List.map_append, List.append_nil]
        rfl
      | eof | err e =>
        refine ⟨hres, hwait, fun r hr => ?_⟩
        cases hr
        rfl
    · rw [hr] at heff
      obtain ⟨hres, hwait⟩ := heff
      rw [if_neg hb] at hwait
      exact ⟨hres.trans results, hwait.trans waiting, failed⟩

theorem sound (hs : s₀ = listenNet ∨ s₀ = ListenWS) (run : Run next anyStep { l := s₀ } s) :
    s.Sound := by
  refine run.invariant ?_ fun _ _ _ _ h _ hn => h.step hn
  rcases hs with rfl | rfl
  · exact ⟨rfl, rfl, fun r hr => by cases hr⟩
  · exact ⟨rfl, rfl, fun r hr => by cases hr⟩

/-- What the listener does beside `Serve` is a run of the listener. -/
theorem listener_run (run : Run next anyStep { l := s₀ } s) : Run Listening.next anyStep s₀ s.l := by
  refine run.invariant (I := fun s => Run Listening.next anyStep s₀ s.l) .start
    fun s a s' _ h _ hn => ?_
  rcases next_cases hn with ⟨-, -, l, hnl, rfl⟩ | ⟨b, l, -, -, hnl, ⟨r, -, rfl⟩ | ⟨-, rfl⟩⟩
  · exact .step _ h trivial hnl
  · cases r <;> exact .step _ h trivial hnl
  · exact .step _ h trivial hnl

/-! ## Coming to rest -/

/-- A bound on the steps by themselves. -/
def work (s : Serving) : Nat := 2 * s.l.work + if s.serve = .looping then 9 else 0

theorem work_lt {a : Act} (ha : s.Internal a) (hn : s.next a = some s') : s'.work < s.work := by
  rcases next_cases hn with ⟨-, hl, l, hnl, rfl⟩ | ⟨b, l, rfl, hb, hnl, hr⟩
  · cases hnl
    simp only [work, Listening.work, hl, reduceCtorEq, if_true, if_false]
    omega
  · have hlt := Listening.work_lt ha hnl
    rcases hr with ⟨r, hr, rfl⟩ | ⟨-, rfl⟩
    · cases r with
      | sess sess =>
        have hb : b = .takeSession sess := by
          cases b <;> simp only [result?, Option.some.injEq, Result.sess.injEq, reduceCtorEq] at hr
          rw [hr]
        rw [hb] at hnl
        have := Listening.work_takeSession hnl
        simp only [work, got, if_true]
        omega
      | eof | err e =>
        simp only [work, got, reduceCtorEq, if_false]
        omega
    · simp only [work]
      omega

/-- A listener at rest beside a `Serve` at rest. -/
theorem Quiet.listener (q : s.Quiet) : s.l.Quiet := by
  intro b hb
  by_contra hne
  obtain ⟨l, hl⟩ := Option.ne_none_iff_exists'.mp hne
  have hn := q (.listener b) hb
  rw [next, hl] at hn
  · cases hn
  · exact hb.2.1

theorem sessions_seen (s : Serving) (hf : ∀ r, s.serve = .returned r → r.session? = none) :
    s.seen.filterMap Result.session? = s.responding := by
  have hmap : (s.responding.map Result.sess).filterMap Result.session? = s.responding := by
    rw [List.filterMap_map]
    exact List.filterMap_some
  rw [seen, List.filterMap_append, hmap]
  cases hs : s.serve with
  | returned r =>
    have hnone : [r].filterMap Result.session? = [] := List.filterMap_cons_none (hf r hs)
    rw [hnone, List.append_nil]
  | _ => exact List.append_nil _

theorem eofs_seen (s : Serving) : s.seen.count .eof ≤ 1 := by
  have hzero : (s.responding.map Result.sess).count .eof = 0 :=
    List.count_eq_zero.mpr (by simp)
  rw [seen, List.count_append, hzero, Nat.zero_add]
  refine Nat.le_trans List.count_le_length ?_
  cases s.serve <;> simp

/-- **Serving a closed listener.** `Respond` was started for the sessions handed over, each once and
in order, and of `listenNet` one at most is left over. The steps by themselves come to an end. Once a
`Close` has returned `Serve` returns an error, whatever else happens; and two `Close`s return at
most. -/
theorem serve_returns (hs : s₀ = listenNet ∨ s₀ = ListenWS) (run : Run next anyStep { l := s₀ } s) :
    (s.responding = s.l.sessions ∧ s.responding.Nodup ∧
      (s₀ = listenNet → s.responding = List.range s.responding.length ∧
        s.l.taken ≤ s.responding.length + 1)) ∧
    s.l.closeResults.length ≤ 2 ∧
    Terminates next Internal s ∧
    (∃ s', Run next Internal s s' ∧ s'.Quiet) ∧
    (s.l.closeResults ≠ [] → s.Quiet → ∃ r, s.serve = .returned r ∧ r.session? = none) := by
  have hsound := sound hs run
  have hrun := listener_run run
  have hacc := Listening.accounted hs hrun
  have hsess : s.responding = s.l.sessions := by
    rw [Listening.sessions, hsound.results, sessions_seen s hsound.failed]
  have hends : Terminates next Internal s := .of_work work (fun _ _ _ => work_lt) s
  refine ⟨⟨hsess, hsess ▸ hacc.fed.nodup, ?_⟩, ?_, hends, hends.rests, ?_⟩
  · rintro rfl
    rw [hsess]
    exact Listening.sessions_eq hrun
  · have htok := hacc.tokens
    have heof := eofs_seen s
    rw [← hsound.results, ← Listening.eofs] at heof
    have := s.l.closer.toNat_le
    omega
  · intro hc q
    cases hserve : s.serve with
    | looping =>
      have hn := q .loop trivial
      rw [next, if_pos hserve] at hn
      cases hn
    | accepting =>
      -- one `Close` has returned, so this `Accept` would have as well
      have hrest := (hacc.at_rest q.listener (hacc.closed hc)).1
      have hlen := hacc.fed.length_sessions
      have hclose := List.length_pos_iff.mpr hc
      have hwait := hsound.waiting
      have hres := congrArg List.length hsound.results
      rw [seen, hserve, List.append_nil, List.length_map] at hres
      rw [if_pos hserve] at hwait
      rw [← hsess] at hlen
      rw [Listening.accepts, Listening.closes] at hrest
      omega
    | returned r => exact ⟨r, rfl, hsound.failed r hserve⟩

/-- Two connections come in, the first is served, and the listener is closed: `Serve` takes the
token while the goroutine offers the second session, which is left over. -/
theorem serve_returns_early : ∃ s, (s.serve = .returned .eof ∧ s.l.feeder = .net (.offering 1)) ∧
    s.responding = s.l.sessions ∧ s.responding.Nodup ∧ s.l.closeResults.length ≤ 2 ∧
    Terminates next Internal s ∧ ∃ s', Run next Internal s s' ∧ s'.Quiet := by
  obtain ⟨s, run, hs⟩ := Run.of_exec next anyStep { l := listenNet }
    [.loop, .listener .connect, .listener .connect, .listener .accept, .listener (.takeSession 0),
      .loop, .listener .accept, .listener .Close, .listener .sendCloser, .listener .takeCloser,
      .listener .closeListener]
    (fun s => decide (s.serve = .returned .eof ∧ s.l.feeder = .net (.offering 1))) (by decide)
  obtain ⟨⟨hsess, hnodup, -⟩, hcloses, hends, hrest, -⟩ := serve_returns (.inl rfl) run
  exact ⟨s, of_decide_eq_true hs, hsess, hnodup, hcloses, hends, hrest⟩

end Serving

end Qtalk.Rpc
