import Qtalk.Lib.Runs
import Mathlib.Data.List.Range
import Mathlib.Data.List.Perm.Basic

/-!
# Listeners

`listener` of `golang/mux/transport/listeners.go` and what `listenNet` and `ListenWS` start beside
it, over a `net.Listener` with a queue of connections. `Accept` takes a token of `Close`, an error
or a session. A token serves one `Accept`, the goroutine of `listenNet` reports one error, and
nothing else tells an `Accept` that the listener is closed (`calls_left`).
-/

namespace Qtalk.Transport
open Qtalk.Lib

/-- The error of an `Accept` or `Close` of the `net.Listener`. -/
inductive NetError where
  /-- `net.ErrClosed` -/
  | closed
  | other (code : Nat)
  deriving DecidableEq, Repr

/-- The goroutine of `listenNet`. -/
inductive Goroutine where
  /-- `l.Accept()` -/
  | accepting
  /-- `accepted <- mux.NewSession(context.Background(), conn)` -/
  | offering (sess : Nat)
  /-- `errs <- err` -/
  | failing (err : NetError)
  | returned
  deriving DecidableEq, Repr

/-- Who takes connections from the `net.Listener`; a session is known by the number of its
connection. -/
inductive Feeder where
  | net (g : Goroutine)
  /-- `s.Serve(l)`, and the handlers at `accepted <- sess`. -/
  | ws (serving : Bool) (handlers : List Nat)
  deriving DecidableEq, Repr

namespace Feeder

/-- The sessions somebody sends on `accepted`. -/
def offers : Feeder → List Nat
  | net (.offering sess) => [sess]
  | net _ => []
  | ws _ handlers => handlers

/-- A session was received from `accepted`. -/
def received (sess : Nat) : Feeder → Feeder
  | net _ => net .accepting
  | ws serving handlers => ws serving (handlers.erase sess)

/-- A connection comes out of `l.Accept()`. -/
def take (conn : Nat) : Feeder → Option Feeder
  | net .accepting => some (net (.offering conn))
  | ws true handlers => some (ws true (handlers ++ [conn]))
  | _ => none

/-- An error comes out of `l.Accept()`. Nobody looks at what `s.Serve(l)` returns. -/
def fail (err : NetError) : Feeder → Option Feeder
  | net .accepting => some (net (.failing err))
  | ws true handlers => some (ws false handlers)
  | _ => none

/-- Whether it closes the `net.Listener` behind an error: `s.Serve(l)` does when it returns. -/
def closes : Feeder → Bool
  | net _ => false
  | ws .. => true

/-- Where the connections taken are, and what is reported in `errs`. -/
def Fed (taken : Nat) (sessions : List Nat) (reported : List NetError) : Feeder → Prop
  | net g =>
    sessions ++ (net g).offers = List.range taken ∧
      reported.length = if g = .returned then 1 else 0
  | ws _ handlers => (sessions ++ handlers).Perm (List.range taken) ∧ reported = []

/-- The errors it will have put into `errs` in the end. -/
def reports : Feeder → Nat
  | net _ => 1
  | ws .. => 0

/-- A weight that steps by itself take something off; a connection taken adds one. -/
def work : Feeder → Nat
  | net .accepting => 2
  | net (.offering _) => 3
  | net (.failing _) => 1
  | net .returned => 0
  | ws serving handlers => serving.toNat + handlers.length

theorem work_take {f f' : Feeder} {conn : Nat} (h : f.take conn = some f') : f'.work = f.work + 1 := by
  unfold take at h
  split at h <;> cases h
  · rfl
  · simp only [work, List.length_append, List.length_singleton]
    omega

theorem work_fail {f f' : Feeder} {err : NetError} (h : f.fail err = some f') :
    f'.work + 1 = f.work := by
  unfold fail at h
  split at h <;> cases h
  · rfl
  · simp only [work, Bool.toNat_false, Bool.toNat_true]
    omega

theorem work_received {f : Feeder} {sess : Nat} (h : sess ∈ f.offers) :
    (f.received sess).work + 1 = f.work := by
  cases f with
  | net g =>
    cases g with
    | offering s => rfl
    | _ => cases h
  | ws serving handlers =>
    have hpos : 0 < handlers.length := List.length_pos_of_mem h
    have herase : (handlers.erase sess).length = handlers.length - 1 := List.length_erase_of_mem h
    simp only [received, work]
    omega

theorem closes_of {f f' : Feeder} (h : (∃ conn, f.take conn = some f') ∨ ∃ err, f.fail err = some f') :
    f'.closes = f.closes := by
  rcases h with ⟨conn, h⟩ | ⟨err, h⟩
  · unfold take at h
    split at h <;> cases h <;> rfl
  · unfold fail at h
    split at h <;> cases h <;> rfl

theorem closes_received (f : Feeder) (sess : Nat) : (f.received sess).closes = f.closes := by
  cases f <;> rfl

theorem reports_of {f f' : Feeder} (h : (∃ conn, f.take conn = some f') ∨ ∃ err, f.fail err = some f') :
    f'.reports = f.reports := by
  rcases h with ⟨conn, h⟩ | ⟨err, h⟩
  · unfold take at h
    split at h <;> cases h <;> rfl
  · unfold fail at h
    split at h <;> cases h <;> rfl

end Feeder

/-- What an `Accept` of the `listener` returns. -/
inductive Result where
  | eof
  | err (e : NetError)
  | sess (n : Nat)
  deriving DecidableEq, Repr

def Result.session? : Result → Option Nat
  | sess n => some n
  | _ => none

def Result.error? : Result → Option NetError
  | err e => some e
  | _ => none

/-- A `listener` with its calls in progress. The connections are numbered as they come in. -/
structure Listening where
  feeder : Feeder
  /-- connections that came in, and how many of them the feeder has taken -/
  arrived : Nat := 0
  taken : Nat := 0
  /-- the `net.Listener` is closed -/
  closed : Bool := false
  errs : Option NetError := none
  closer : Bool := false
  /-- `Accept` calls in their `select`, and what the others returned -/
  waiting : Nat := 0
  results : List Result := []
  /-- `Close` calls at `l.closer <- true`, at `l.Listener.Close()`, and what the others returned -/
  sending : Nat := 0
  closing : Nat := 0
  closeResults : List (Option NetError) := []
  deriving DecidableEq, Repr

/-- `listenNet`, of `ListenTCP` and `ListenUnix`. -/
def listenNet : Listening := { feeder := .net .accepting }

def ListenWS : Listening := { feeder := .ws true [] }

inductive Act where
  /-- a connection comes in -/
  | connect
  /-- `l.Accept()` of the feeder -/
  | accept
  | fail (err : NetError)
  /-- `errs <- err` -/
  | report
  /-- `Accept` is called -/
  | Accept
  /-- the cases of its `select` -/
  | takeCloser
  | takeErr (err : NetError)
  | takeSession (sess : Nat)
  /-- `Close` is called -/
  | Close
  /-- `l.closer <- true` -/
  | sendCloser
  /-- `l.Listener.Close()` -/
  | closeListener
  deriving DecidableEq, Repr

namespace Listening

/-- An `Accept` returns. -/
def returns (l : Listening) (r : Result) : Listening :=
  { l with waiting := l.waiting - 1, results := l.results ++ [r] }

def next (l : Listening) : Act → Option Listening
  | .connect => if l.closed then none else some { l with arrived := l.arrived + 1 }
  | .accept =>
    if l.closed = false ∧ l.taken < l.arrived then
      (l.feeder.take l.taken).map fun feeder => { l with feeder, taken := l.taken + 1 }
    else none
  | .fail err =>
    if err = .closed ↔ l.closed = true then
      (l.feeder.fail err).map fun feeder => { l with feeder, closed := l.closed || feeder.closes }
    else none
  | .report =>
    match l.feeder, l.errs with
    | .net (.failing err), none => some { l with feeder := .net .returned, errs := some err }
    | _, _ => none
  | .Accept => some { l with waiting := l.waiting + 1 }
  | .takeCloser =>
    if 0 < l.waiting ∧ l.closer = true then some ({ l with closer := false }.returns .eof) else none
  | .takeErr err =>
    if 0 < l.waiting ∧ l.errs = some err then some ({ l with errs := none }.returns (.err err))
    else none
  | .takeSession sess =>
    if 0 < l.waiting ∧ sess ∈ l.feeder.offers then
      some ({ l with feeder := l.feeder.received sess }.returns (.sess sess))
    else none
  | .Close => some { l with sending := l.sending + 1 }
  | .sendCloser =>
    if 0 < l.sending ∧ l.closer = false then
      some { l with sending := l.sending - 1, closer := true, closing := l.closing + 1 }
    else none
  | .closeListener =>
    if 0 < l.closing then
      some { l with
        closing := l.closing - 1
        closed := true
        closeResults := l.closeResults ++ [if l.closed then some .closed else none] }
    else none

/-- The sessions that `Accept` returned, and the errors. -/
def sessions (l : Listening) : List Nat := l.results.filterMap Result.session?

def errors (l : Listening) : List NetError := l.results.filterMap Result.error?

def eofs (l : Listening) : Nat := l.results.count .eof

/-- The calls made so far. -/
def accepts (l : Listening) : Nat := l.waiting + l.results.length

def closes (l : Listening) : Nat := l.sending + l.closing + l.closeResults.length

/-- Steps that need nobody from outside. -/
def Internal (_ : Listening) (a : Act) : Prop :=
  a ≠ .connect ∧ a ≠ .Accept ∧ a ≠ .Close ∧ ∀ code, a ≠ .fail (.other code)

/-- Without a new call or connection nothing will happen any more. -/
def Quiet (l : Listening) : Prop := ∀ a, Internal l a → l.next a = none

/-! ## Accounts -/

/-- The errors put into `errs`. -/
def reported (l : Listening) : List NetError := l.errors ++ l.errs.toList

structure Accounted (l : Listening) : Prop where
  fed : l.feeder.Fed l.taken l.sessions l.reported
  /-- a token for each `Close` that went on, taken by one `Accept` or still there -/
  tokens : l.eofs + l.closer.toNat = l.closing + l.closeResults.length
  closed : l.closeResults ≠ [] → l.closed = true
  /-- nobody else closes what `listenNet` listens on -/
  own : l.feeder.closes = false → l.closed = true → l.closeResults ≠ []
  /-- the first `Close` alone may report no error, and that of `listenNet` does -/
  once : ∀ k r, l.closeResults[k]? = some r →
    (r = none → k = 0) ∧ (l.feeder.closes = false → k = 0 → r = none)
  /-- behind an error no session is returned -/
  last : l.results.Pairwise fun r r' => r.error? ≠ none → r'.session? = none

theorem length_results (l : Listening) :
    l.results.length = l.sessions.length + l.errors.length + l.eofs := by
  rw [sessions, errors, eofs]
  induction l.results with
  | nil => rfl
  | cons r rs ih =>
    cases r <;>
      simp only [List.length_cons, List.filterMap_cons, Result.session?, Result.error?,
        List.count_cons, beq_iff_eq, reduceCtorEq, if_true, if_false] <;> omega

section Returns

variable (l : Listening)

@[simp] theorem sessions_returns (r : Result) :
    (l.returns r).sessions = l.sessions ++ r.session?.toList := by
  rw [sessions, returns, List.filterMap_append]
  cases r <;> rfl

@[simp] theorem errors_returns (r : Result) :
    (l.returns r).errors = l.errors ++ r.error?.toList := by
  rw [errors, returns, List.filterMap_append]
  cases r <;> rfl

@[simp] theorem eofs_returns (r : Result) :
    (l.returns r).eofs = l.eofs + if r = .eof then 1 else 0 := by
  rw [eofs, returns, List.count_append, List.count_singleton]
  simp only [beq_iff_eq]
  rfl

end Returns

theorem accounted_start (l : Listening) (h : l = listenNet ∨ l = ListenWS) : l.Accounted := by
  rcases h with rfl | rfl
  · exact ⟨⟨rfl, rfl⟩, rfl, by decide, by decide, by simp [listenNet], .nil⟩
  · exact ⟨⟨.refl _, rfl⟩, rfl, by decide, by decide, by simp [ListenWS], .nil⟩

end Listening

namespace Feeder.Fed

variable {f f' : Feeder} {taken sess : Nat} {sessions : List Nat} {reported : List NetError}

/-- Nothing was reported while a session is offered. -/
theorem no_reports (h : f.Fed taken sessions reported) (ho : sess ∈ f.offers) : reported = [] := by
  cases f with
  | net g =>
    cases g with
    | offering s => exact List.eq_nil_of_length_eq_zero h.2
    | _ => cases ho
  | ws serving handlers => exact h.2

theorem take (h : f.Fed taken sessions reported) (ht : f.take taken = some f') :
    f'.Fed (taken + 1) sessions reported := by
  unfold Feeder.take at ht
  split at ht
  · cases ht
    obtain ⟨hs, he⟩ := h
    refine ⟨?_, he⟩
    rw [Feeder.offers.eq_2 _ (by simp), List.append_nil] at hs
    rw [List.range_succ, ← hs]
    rfl
  · cases ht
    obtain ⟨hs, he⟩ := h
    refine ⟨?_, he⟩
    rw [List.range_succ, ← List.append_assoc]
    exact hs.append_right _
  · cases ht

theorem fail (h : f.Fed taken sessions reported) {err : NetError} (ht : f.fail err = some f') :
    f'.Fed taken sessions reported := by
  unfold Feeder.fail at ht
  split at ht
  · cases ht
    exact h
  · cases ht
    exact h
  · cases ht

theorem report {err : NetError} (h : (net (.failing err)).Fed taken sessions reported)
    {reported' : List NetError} (hr : reported' = reported ++ [err]) :
    (net .returned).Fed taken sessions reported' := by
  obtain ⟨hs, he⟩ := h
  refine ⟨hs, ?_⟩
  rw [hr, List.length_append, he]
  rfl

theorem received (h : f.Fed taken sessions reported) (ho : sess ∈ f.offers) :
    (f.received sess).Fed taken (sessions ++ [sess]) reported := by
  cases f with
  | net g =>
    cases g with
    | offering s =>
      obtain ⟨hs, he⟩ := h
      rw [List.mem_singleton.mp ho]
      exact ⟨(List.append_nil _).trans hs, he⟩
    | _ => cases ho
  | ws serving handlers =>
    obtain ⟨hs, he⟩ := h
    refine ⟨?_, he⟩
    rw [List.append_assoc]
    exact ((List.perm_cons_erase ho).symm.append_left _).trans hs

/-- Each connection taken was handed over or is offered. -/
theorem length_sessions (h : f.Fed taken sessions reported) :
    sessions.length + f.offers.length = taken := by
  cases f with
  | net g =>
    have := congrArg List.length h.1
    rwa [List.length_append, List.length_range] at this
  | ws serving handlers =>
    have := h.1.length_eq
    rwa [List.length_append, List.length_range] at this

theorem nodup (h : f.Fed taken sessions reported) : sessions.Nodup := by
  have hall : (sessions ++ f.offers).Nodup := by
    cases f with
    | net g =>
      rw [h.1]
      exact List.nodup_range
    | ws serving handlers => exact h.1.nodup_iff.mpr List.nodup_range
  exact (List.nodup_append.mp hall).1

theorem length_reported (h : f.Fed taken sessions reported) : reported.length ≤ f.reports := by
  cases f with
  | net g =>
    rw [h.2, Feeder.reports]
    split <;> omega
  | ws serving handlers =>
    rw [h.2]
    exact Nat.le_refl _

end Feeder.Fed

namespace Listening.Accounted

variable {l l' : Listening}

/-- What is returned stands behind the errors so far, a session behind none. -/
theorem last_returns (h : l.Accounted) {r : Result} (hr : r.session? ≠ none → l.errors = []) :
    (l.results ++ [r]).Pairwise fun r r' => r.error? ≠ none → r'.session? = none := by
  rw [List.pairwise_append]
  refine ⟨h.last, List.pairwise_singleton _ _, fun a ha b hb hne => ?_⟩
  rw [List.mem_singleton.mp hb]
  by_contra hs
  obtain ⟨e, he⟩ := Option.ne_none_iff_exists'.mp hne
  have hmem : e ∈ l.errors := List.mem_filterMap.mpr ⟨a, ha, he⟩
  rw [hr hs] at hmem
  cases hmem

theorem accept (h : l.Accounted) {feeder : Feeder} (ht : l.feeder.take l.taken = some feeder) :
    Accounted { l with feeder, taken := l.taken + 1 } where
  fed := h.fed.take ht
  tokens := h.tokens
  closed := h.closed
  own hf := h.own (Feeder.closes_of (.inl ⟨_, ht⟩) ▸ hf)
  once k r hk := ⟨(h.once k r hk).1, fun hf => (h.once k r hk).2 (Feeder.closes_of (.inl ⟨_, ht⟩) ▸ hf)⟩
  last := h.last

/-- Behind an error `s.Serve(l)` has closed the `net.Listener`; the goroutine of `listenNet` has not. -/
theorem fail (h : l.Accounted) {err : NetError} {feeder : Feeder}
    (ht : l.feeder.fail err = some feeder) :
    Accounted { l with feeder, closed := l.closed || feeder.closes } := by
  have hsame : feeder.closes = l.feeder.closes := Feeder.closes_of (.inr ⟨_, ht⟩)
  refine ⟨h.fed.fail ht, h.tokens, fun hne => ?_, fun hf hc => ?_, fun k r hk => ?_, h.last⟩
  · show (l.closed || feeder.closes) = true
    rw [h.closed hne, Bool.true_or]
  · have hf : feeder.closes = false := hf
    rw [hf, Bool.or_false] at hc
    exact h.own (hsame ▸ hf) hc
  · exact ⟨(h.once k r hk).1, fun hf => (h.once k r hk).2 (hsame ▸ hf)⟩

theorem report (h : l.Accounted) {err : NetError} (hf : l.feeder = .net (.failing err))
    (he : l.errs = none) : Accounted { l with feeder := .net .returned, errs := some err } := by
  have hfed := h.fed
  have hcloses : l.feeder.closes = false := by rw [hf]; rfl
  rw [hf] at hfed
  refine ⟨hfed.report ?_, h.tokens, h.closed, fun _ => h.own hcloses, fun k r hk => ?_, h.last⟩
  · rw [reported, reported, he]
    simp only [Option.toList_some, Option.toList_none, List.append_nil]
    rfl
  · exact ⟨(h.once k r hk).1, fun _ => (h.once k r hk).2 hcloses⟩

theorem takeCloser (h : l.Accounted) (hc : l.closer = true) :
    Accounted ({ l with closer := false }.returns .eof) := by
  refine ⟨?_, ?_, h.closed, h.own, h.once, h.last_returns (absurd rfl)⟩
  · rw [sessions_returns, reported, errors_returns]
    show l.feeder.Fed l.taken (l.sessions ++ []) ((l.errors ++ []) ++ l.errs.toList)
    rw [List.append_nil, List.append_nil]
    exact h.fed
  · have htokens := h.tokens
    rw [hc] at htokens
    rw [eofs_returns, if_pos rfl]
    exact htokens

theorem takeErr (h : l.Accounted) {err : NetError} (he : l.errs = some err) :
    Accounted ({ l with errs := none }.returns (.err err)) := by
  refine ⟨?_, ?_, h.closed, h.own, h.once, h.last_returns (absurd rfl)⟩
  · have hfed := h.fed
    rw [reported, he] at hfed
    rw [sessions_returns, reported, errors_returns]
    show l.feeder.Fed l.taken (l.sessions ++ []) ((l.errors ++ [err]) ++ [])
    rw [List.append_nil, List.append_nil]
    exact hfed
  · rw [eofs_returns, if_neg (by simp)]
    exact h.tokens

theorem takeSession (h : l.Accounted) {sess : Nat} (ho : sess ∈ l.feeder.offers) :
    Accounted ({ l with feeder := l.feeder.received sess }.returns (.sess sess)) := by
  have hsame := Feeder.closes_received l.feeder sess
  refine ⟨?_, ?_, h.closed, fun hf => h.own (hsame ▸ hf), fun k r hk => ?_, h.last_returns fun _ => ?_⟩
  · rw [sessions_returns, reported, errors_returns]
    show (l.feeder.received sess).Fed l.taken (l.sessions ++ [sess])
      ((l.errors ++ []) ++ l.errs.toList)
    rw [List.append_nil]
    exact h.fed.received ho
  · rw [eofs_returns, if_neg (by simp)]
    exact h.tokens
  · exact ⟨(h.once k r hk).1, fun hf => (h.once k r hk).2 (hsame ▸ hf)⟩
  · exact (List.append_eq_nil_iff.mp (h.fed.no_reports ho)).1

theorem sendCloser (h : l.Accounted) (hc : l.closer = false) :
    Accounted { l with sending := l.sending - 1, closer := true, closing := l.closing + 1 } := by
  refine ⟨h.fed, ?_, h.closed, h.own, h.once, h.last⟩
  have htokens := h.tokens
  rw [hc, Bool.toNat_false] at htokens
  show l.eofs + 1 = l.closing + 1 + l.closeResults.length
  omega

theorem closeListener (h : l.Accounted) (hc : 0 < l.closing) :
    Accounted { l with
      closing := l.closing - 1
      closed := true
      closeResults := l.closeResults ++ [if l.closed then some .closed else none] } := by
  refine ⟨h.fed, ?_, fun _ => rfl, fun _ _ => List.concat_ne_nil _ _, fun k r hk => ?_, h.last⟩
  · have htokens := h.tokens
    show l.eofs + l.closer.toNat = l.closing - 1 + (l.closeResults ++ [_]).length
    rw [List.length_append, List.length_singleton]
    omega
  · rw [List.getElem?_append] at hk
    split at hk
    · exact h.once k r hk
    · next hge =>
      obtain ⟨hlt, heq⟩ := List.getElem?_eq_some_iff.mp hk
      rw [List.length_singleton] at hlt
      have hk0 : k = l.closeResults.length := by omega
      rw [List.getElem_singleton] at heq
      rw [← heq, hk0, List.length_eq_zero_iff]
      constructor
      · intro hnone
        by_contra hne
        rw [if_pos (h.closed hne)] at hnone
        cases hnone
      · intro hf hnil
        refine if_neg fun hcl => ?_
        exact h.own hf hcl hnil

theorem step (h : l.Accounted) {a : Act} (hn : l.next a = some l') : l'.Accounted := by
  cases a with
  | connect =>
    rw [next] at hn
    split at hn <;> cases hn
    exact ⟨h.fed, h.tokens, h.closed, h.own, h.once, h.last⟩
  | accept =>
    rw [next] at hn
    split at hn
    · obtain ⟨feeder, ht, rfl⟩ := Option.map_eq_some_iff.mp hn
      exact h.accept ht
    · cases hn
  | fail err =>
    rw [next] at hn
    split at hn
    · obtain ⟨feeder, ht, rfl⟩ := Option.map_eq_some_iff.mp hn
      exact h.fail ht
    · cases hn
  | report =>
    rw [next] at hn
    split at hn
    · next err hf he =>
      cases hn
      exact h.report hf he
    · cases hn
  | Accept | Close =>
    cases hn
    exact ⟨h.fed, h.tokens, h.closed, h.own, h.once, h.last⟩
  | takeCloser =>
    rw [next, Option.ite_none_right_eq_some] at hn
    obtain ⟨hc, hn⟩ := hn
    cases hn
    exact h.takeCloser hc.2
  | takeErr err =>
    rw [next, Option.ite_none_right_eq_some] at hn
    obtain ⟨hc, hn⟩ := hn
    cases hn
    exact h.takeErr hc.2
  | takeSession sess =>
    rw [next, Option.ite_none_right_eq_some] at hn
    obtain ⟨hc, hn⟩ := hn
    cases hn
    exact h.takeSession hc.2
  | sendCloser =>
    rw [next, Option.ite_none_right_eq_some] at hn
    obtain ⟨hc, hn⟩ := hn
    cases hn
    exact h.sendCloser hc.2
  | closeListener =>
    rw [next, Option.ite_none_right_eq_some] at hn
    obtain ⟨hc, hn⟩ := hn
    cases hn
    exact h.closeListener hc

end Listening.Accounted

namespace Listening

variable {l l' s₀ : Listening}

theorem accounted (hs : s₀ = listenNet ∨ s₀ = ListenWS) (run : Run next anyStep s₀ l) : l.Accounted :=
  run.invariant (accounted_start s₀ hs) fun _ _ _ _ h _ hn => h.step hn

/-! ## At rest -/

namespace Quiet

variable (q : l.Quiet)

include q

theorem not_closing : l.closing = 0 := by
  have hn := q .closeListener ⟨by simp, by simp, by simp, by simp⟩
  rw [next] at hn
  split at hn
  · cases hn
  · next h => omega

/-- A `Close` waits for the token of another one only. -/
theorem token (h : 0 < l.sending) : l.closer = true := by
  have hn := q .sendCloser ⟨by simp, by simp, by simp, by simp⟩
  rw [next, ite_eq_right_iff] at hn
  by_contra hc
  cases hn ⟨h, by simpa using hc⟩

/-- An `Accept` waits while there is nothing for it. -/
theorem nothing (h : 0 < l.waiting) : l.closer = false ∧ l.errs = none ∧ l.feeder.offers = [] := by
  refine ⟨?_, ?_, ?_⟩
  · have hn := q .takeCloser ⟨by simp, by simp, by simp, by simp⟩
    rw [next, ite_eq_right_iff] at hn
    by_contra hc
    cases hn ⟨h, by simpa using hc⟩
  · by_contra hc
    obtain ⟨err, he⟩ := Option.ne_none_iff_exists'.mp hc
    have hn := q (.takeErr err) ⟨by simp, by simp, by simp, by simp⟩
    rw [next, if_pos ⟨h, he⟩] at hn
    cases hn
  · by_contra hc
    obtain ⟨sess, hs⟩ := List.exists_mem_of_ne_nil _ hc
    have hn := q (.takeSession sess) ⟨by simp, by simp, by simp, by simp⟩
    rw [next, if_pos ⟨h, hs⟩] at hn
    cases hn

/-- Behind a closed `net.Listener` the goroutine of `listenNet` sends a session, or it has ended. -/
theorem ended (hc : l.closed = true) {g : Goroutine} (hf : l.feeder = .net g)
    (hfed : l.feeder.Fed l.taken l.sessions l.reported) : g = .returned ∨ l.feeder.offers ≠ [] := by
  cases g with
  | accepting =>
    have hn := q (.fail .closed) ⟨by simp, by simp, by simp, by simp⟩
    rw [next, if_pos (by simp [hc]), hf] at hn
    cases hn
  | offering sess => exact .inr (by rw [hf]; simp [Feeder.offers])
  | failing err =>
    rw [hf] at hfed
    have hnone : l.errs = none := by
      have hr := (List.append_eq_nil_iff.mp (List.eq_nil_of_length_eq_zero hfed.2)).2
      exact Option.toList_eq_nil_iff.mp hr
    have hn := q .report ⟨by simp, by simp, by simp, by simp⟩
    rw [next, hf, hnone] at hn
    cases hn
  | returned => exact .inl rfl

end Quiet

/-- What is left of the calls when nothing moves any more. -/
theorem Accounted.at_rest (h : l.Accounted) (q : l.Quiet) (hc : l.closed = true) :
    l.waiting = l.accepts - (l.taken + l.closes + l.feeder.reports) ∧
      l.sending = l.closes - (l.eofs + 1) := by
  have hlen := l.length_results
  have htok := h.tokens
  have hfed := h.fed
  have hclosing := q.not_closing
  rw [accepts, closes]
  have hsess := hfed.length_sessions
  have hrep := hfed.length_reported
  rw [reported, List.length_append] at hrep
  constructor
  · rcases Nat.eq_zero_or_pos l.waiting with hw | hw
    · omega
    · obtain ⟨hcloser, herrs, hoffers⟩ := q.nothing hw
      have hsend : l.sending = 0 := by
        by_contra hne
        rw [q.token (Nat.pos_of_ne_zero hne)] at hcloser
        cases hcloser
      have hall : l.errors.length = l.feeder.reports := by
        cases hf : l.feeder with
        | net g =>
          rcases q.ended hc hf hfed with rfl | hne
          · rw [hf] at hfed
            have := hfed.2
            rw [reported, herrs, Option.toList_none, List.append_nil, if_pos rfl] at this
            exact this
          · exact absurd hoffers hne
        | ws serving handlers =>
          rw [hf] at hfed
          exact congrArg List.length (List.append_eq_nil_iff.mp hfed.2).1
      have hzero : l.closer.toNat = 0 := by rw [hcloser]; rfl
      rw [hoffers, List.length_nil] at hsess
      omega
  · rcases Nat.eq_zero_or_pos l.sending with hz | hpos
    · have := l.closer.toNat_le
      omega
    · have hone : l.closer.toNat = 1 := by rw [q.token hpos]; rfl
      omega

/-! ## Coming to rest -/

/-- A bound on the steps it can take by itself. -/
def work (l : Listening) : Nat :=
  4 * (l.arrived - l.taken) + l.feeder.work + 4 * l.waiting + 2 * l.sending + l.closing

theorem work_takeSession {sess : Nat} (hn : l.next (.takeSession sess) = some l') :
    l'.work + 5 = l.work := by
  rw [next] at hn
  split at hn
  · next hc =>
    cases hn
    have := Feeder.work_received hc.2
    simp only [work, returns]
    omega
  · cases hn

theorem work_lt {a : Act} (ha : Internal l a) (hn : l.next a = some l') : l'.work < l.work := by
  obtain ⟨hconnect, hAccept, hClose, -⟩ := ha
  cases a with
  | connect => exact absurd rfl hconnect
  | Accept => exact absurd rfl hAccept
  | Close => exact absurd rfl hClose
  | accept =>
    rw [next] at hn
    split at hn
    · next hc =>
      obtain ⟨feeder, ht, rfl⟩ := Option.map_eq_some_iff.mp hn
      have := Feeder.work_take ht
      simp only [work]
      omega
    · cases hn
  | fail err =>
    rw [next] at hn
    split at hn
    · obtain ⟨feeder, ht, rfl⟩ := Option.map_eq_some_iff.mp hn
      have := Feeder.work_fail ht
      simp only [work]
      omega
    · cases hn
  | report =>
    rw [next] at hn
    split at hn
    · next hf _ =>
      cases hn
      simp only [work, hf, Feeder.work]
      omega
    · cases hn
  | takeSession sess =>
    have := work_takeSession hn
    omega
  | takeCloser | takeErr err | sendCloser | closeListener =>
    rw [next] at hn
    split at hn
    · next hc =>
      cases hn
      simp only [work, returns]
      omega
    · cases hn

/-- The number of calls is up to the callers. -/
theorem calls_eq {a : Act} (ha : Internal l a) (hn : l.next a = some l') :
    l'.accepts = l.accepts ∧ l'.closes = l.closes := by
  obtain ⟨hconnect, hAccept, hClose, -⟩ := ha
  cases a with
  | connect => exact absurd rfl hconnect
  | Accept => exact absurd rfl hAccept
  | Close => exact absurd rfl hClose
  | accept | fail err =>
    rw [next] at hn
    split at hn
    · obtain ⟨feeder, ht, rfl⟩ := Option.map_eq_some_iff.mp hn
      exact ⟨rfl, rfl⟩
    · cases hn
  | report =>
    rw [next] at hn
    split at hn <;> cases hn
    exact ⟨rfl, rfl⟩
  | takeCloser | takeErr err | takeSession sess | sendCloser | closeListener =>
    rw [next] at hn
    split at hn
    · next hc =>
      cases hn
      simp only [accepts, closes, returns, List.length_append, List.length_singleton, and_true,
        true_and]
      omega
    · cases hn

/-- What feeds a listener stays what it is. -/
theorem reports_eq {a : Act} (hn : l.next a = some l') : l'.feeder.reports = l.feeder.reports := by
  cases a with
  | accept | fail err =>
    rw [next] at hn
    split at hn
    · obtain ⟨feeder, ht, rfl⟩ := Option.map_eq_some_iff.mp hn
      exact Feeder.reports_of (by first | exact .inl ⟨_, ht⟩ | exact .inr ⟨_, ht⟩)
    · cases hn
  | report =>
    rw [next] at hn
    split at hn
    · next hf _ =>
      cases hn
      rw [hf]
      rfl
    · cases hn
  | takeSession sess =>
    rw [next] at hn
    split at hn
    · cases hn
      show (l.feeder.received sess).reports = _
      cases l.feeder <;> rfl
    · cases hn
  | Accept | Close =>
    cases hn
    rfl
  | connect | takeCloser | takeErr err | sendCloser | closeListener =>
    rw [next] at hn
    split at hn <;> cases hn
    rfl

theorem reports_run (run : Run next anyStep s₀ l) : l.feeder.reports = s₀.feeder.reports :=
  run.invariant (I := fun l => l.feeder.reports = s₀.feeder.reports) rfl
    fun _ _ _ _ h _ hn => (reports_eq hn).trans h

/-- **What `Accept` and `Close` come to.** The calls in progress come to rest, whatever the order of
the steps by itself. With the listener closed, there are then as many `Accept`s that never return as are left behind one for each session,
one for each `Close`, and one for the error that `listenNet` reports; and all `Close`s but one that
found no `Accept` to take their token never return. -/
theorem calls_left (hs : s₀ = listenNet ∨ s₀ = ListenWS) (run : Run next anyStep s₀ l) :
    Terminates next Internal l ∧
      (∃ l', Run next Internal l l' ∧ l'.Quiet ∧ l'.accepts = l.accepts ∧ l'.closes = l.closes) ∧
      (l.Quiet → l.closed = true →
        l.waiting = l.accepts - (l.taken + l.closes + s₀.feeder.reports) ∧
          l.sending = l.closes - (l.eofs + 1)) := by
  have hends : Terminates next Internal l := .of_work work (fun _ _ _ => work_lt) l
  refine ⟨hends, ?_, ?_⟩
  · obtain ⟨l', run', q⟩ : ∃ l', Run next Internal l l' ∧ l'.Quiet := hends.rests
    have hcalls : l'.accepts = l.accepts ∧ l'.closes = l.closes := by
      refine run'.invariant (I := fun l' => l'.accepts = l.accepts ∧ l'.closes = l.closes) ⟨rfl, rfl⟩
        fun s a s' _ h ha hn => ?_
      obtain ⟨h1, h2⟩ := calls_eq ha hn
      exact ⟨h1.trans h.1, h2.trans h.2⟩
    exact ⟨l', run', q, hcalls⟩
  · intro q hc
    rw [← reports_run run]
    exact (accounted hs run).at_rest q hc

/-- The listener is closed once. Of three `Accept`s one takes the token, one the error, and the
third waits for good. -/
theorem calls_left_third : ∃ l, Run next anyStep listenNet l ∧
    (l.waiting = 1 ∧ l.accepts = 3 ∧ l.closes = 1 ∧ l.closed = true) ∧ Terminates next Internal l ∧
      ∃ l', Run next Internal l l' ∧ l'.Quiet ∧ l'.accepts = l.accepts ∧ l'.closes = l.closes := by
  obtain ⟨l, run, hl⟩ := Run.of_exec next anyStep listenNet
    [.Accept, .Accept, .Accept, .Close, .sendCloser, .takeCloser, .closeListener, .fail .closed,
      .report, .takeErr .closed]
    (fun l => decide (l.waiting = 1 ∧ l.accepts = 3 ∧ l.closes = 1 ∧ l.closed = true)) (by decide)
  obtain ⟨hends, hrest, -⟩ := calls_left (.inl rfl) run
  exact ⟨l, run, of_decide_eq_true hl, hends, hrest⟩

/-- The sessions of `listenNet` come in the order of their connections and without a gap, and the
goroutine holds back one at most. -/
theorem sessions_eq (run : Run next anyStep listenNet l) :
    l.sessions = List.range l.sessions.length ∧ l.taken ≤ l.sessions.length + 1 := by
  have hfed := (accounted (.inl rfl) run).fed
  have hlen := hfed.length_sessions
  have hrep := reports_run run
  cases hf : l.feeder with
  | ws serving handlers =>
    rw [hf] at hrep
    cases hrep
  | net g =>
    rw [hf] at hfed hlen
    have hone : (Feeder.net g).offers.length ≤ 1 := by
      cases g <;> simp [Feeder.offers]
    refine ⟨?_, by omega⟩
    have htake := congrArg (List.take l.sessions.length) hfed.1
    rw [List.take_left, List.take_range, Nat.min_eq_left (by omega)] at htake
    exact htake

end Listening

end Qtalk.Transport
