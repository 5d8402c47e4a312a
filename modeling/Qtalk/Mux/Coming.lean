import Qtalk.Mux.Handshake

/-!
# A channel is accepted once

Between `handleOpen` and `Accept` a channel stands in one place: it is about to be published,
or it waits in `incomingChannels`. `Accept` takes it out of there for good, so no channel is
returned twice.
-/

namespace Qtalk.Mux
open Qtalk.Codec Qtalk.Lib

/-- The channel an operation of the loop puts in the queue of `Accept`. -/
def LoopOp.published : LoopOp → Option Nat
  | .publish c => some c
  | _ => none

namespace Session

variable {s s' : Session} {a : Act} {out : List Packet} {c : Nat}

/-- The channels on their way to `Accept`. -/
def coming (s : Session) : List Nat := s.incoming ++ s.ops.filterMap LoopOp.published

structure Coming (s : Session) : Prop where
  nodup : s.coming.Nodup
  unheld : ∀ c ∈ s.coming, (s.heap c).held = false

theorem Inv.coming (h : s.Inv) (hc : c ∈ s.coming) : c < s.fresh ∧ (s.heap c).direction = .inbound := by
  rcases List.mem_append.mp hc with hc | hc
  · exact h.incoming c hc
  · obtain ⟨op, hop, hpub⟩ := List.mem_filterMap.mp hc
    cases op with
    | publish c' =>
      cases hpub
      exact h.ops _ hop
    | _ => cases hpub

theorem published_exitOps (e : LoopError) : (exitOps e).filterMap LoopOp.published = [] := rfl

theorem published_closeOps (cs : List Nat) :
    (cs.flatMap closeOps).filterMap LoopOp.published = [] := by
  induction cs with
  | nil => rfl
  | cons c cs ih =>
    rw [List.flatMap_cons, List.filterMap_append, ih]
    rfl

/-- The answer to a message publishes nothing. -/
theorem published_handle {c : Nat} {ch ch' : Channel} {m : Message} {ops : List LoopOp}
    (h : ch.handle c m = .ok (ch', ops)) : ops.filterMap LoopOp.published = [] := by
  obtain ⟨-, -, -, rfl | ⟨m', rfl, rfl⟩ | ⟨m', rfl, rfl⟩ | ⟨m', rfl, rfl⟩⟩ := Channel.handle_ops h <;> rfl

/-- A step other than `Accept` leaves held what was held, and nothing more. -/
theorem Inv.unheld (h : s.Inv) (ht : Trans s a s' out) (hc : c < s.fresh)
    (hready : (s.heap c).opening = .returned) (ha : a ≠ .accept) (hh : (s.heap c).held = false) :
    (s'.heap c).held = false := by
  rw [← Bool.not_eq_true]
  intro hheld
  rcases (h.changes ht hc).held.2 hheld with hold | hacc | hwait
  · rw [hh] at hold
    cases hold
  · exact ha hacc
  · rw [hready] at hwait
    cases hwait

theorem Coming.step (h : s.Coming) (hi : s.Inv)
    (hready : ∀ c < s.fresh, (s.heap c).direction = .inbound → (s.heap c).opening = .returned)
    (ht : Trans s a s' out) : s'.Coming := by
  -- nothing new is on its way
  have keep : a ≠ .accept → s'.coming.Sublist s.coming → s'.Coming := by
    intro ha hsub
    refine ⟨h.nodup.sublist hsub, fun c hc => ?_⟩
    have hin := hsub.subset hc
    obtain ⟨hlt, hdir⟩ := hi.coming hin
    exact hi.unheld ht hlt (hready c hlt hdir) ha (h.unheld c hin)
  have pop : ∀ {op ops}, s.ops = op :: ops → s'.ops = ops → s'.incoming = s.incoming →
      s'.coming.Sublist s.coming := by
    intro op ops ho ho' hin
    rw [coming, coming, hin, ho, ho']
    exact ((List.sublist_cons_self op ops).filterMap _).append_left _
  have exits : ∀ {e}, s'.ops = exitOps e → s'.incoming = s.incoming → s'.coming.Sublist s.coming := by
    intro e ho hin
    rw [coming, coming, ho, hin, published_exitOps, List.append_nil]
    exact List.sublist_append_left _ _
  cases ht with
  | @accept c incoming hin =>
    have hnodup := h.nodup
    have hcoming : s.coming = c :: (incoming ++ s.ops.filterMap LoopOp.published) := by rw [coming, hin]; rfl
    rw [hcoming, List.nodup_cons] at hnodup
    refine ⟨hnodup.2, fun c' hc' => ?_⟩
    have hne : c' ≠ c := fun heq => hnodup.1 (heq ▸ hc')
    have hold := h.unheld c' (by rw [hcoming]; exact List.mem_cons_of_mem _ hc')
    simpa [hne] using hold
  | undecoded | unknown | refuse => exact keep (by simp) (exits rfl rfl)
  | confirmFailed | rejectFailed => exact keep (by simp) (exits rfl rfl)
  | handle _ ho _ _ _ hh =>
    refine keep (by simp) ?_
    simp only [coming, published_handle hh, List.append_nil]
    exact List.sublist_append_left _ _
  | rejectOpen _ ho =>
    refine keep (by simp) ?_
    simp only [coming, ho]
    exact List.Sublist.refl _
  | @handleOpen m hr ho =>
    have hcoming : s.coming = s.incoming := by rw [coming, ho]; exact List.append_nil _
    have hnew : ∀ c ∈ s.incoming, c < s.fresh := fun c hc => (hi.incoming c hc).1
    refine ⟨?_, fun c hc => ?_⟩
    · show (s.incoming ++ [s.fresh]).Nodup
      rw [List.nodup_append]
      refine ⟨hcoming ▸ h.nodup, by simp, fun c hc d hd heq => ?_⟩
      rw [List.mem_singleton.mp hd] at heq
      exact absurd (hnew c hc) (by omega)
    · rcases List.mem_append.mp hc with hc | hc
      · show ((s.added (inboundChannel m)).heap c).held = false
        rw [added_old s _ (hnew c hc)]
        exact h.unheld c (hcoming ▸ hc)
      · obtain rfl : c = s.fresh := List.mem_singleton.mp hc
        show ((s.added (inboundChannel m)).heap s.fresh).held = false
        rw [added_new]
        rfl
  | @publish c ops ok ho hl =>
    refine keep (by simp) ?_
    simp only [coming, ho, List.append_assoc]
    exact List.Sublist.refl _
  | @dropAll ops ok ho =>
    refine keep (by simp) ?_
    simp only [coming, ho, List.filterMap_append, published_closeOps, List.nil_append]
    exact ((List.sublist_cons_self _ ops).filterMap _).append_left _
  | confirm ho | reject ho | queue ok ho | queueClosed ok ho | reply ok ho | remove ok ho | eof ok ho
  | closeMsg ok ho | closeMsgTwice ok ho | markClosed ok ho | closeWin ok ho | connClose ok ho
  | signal ok ho | setErr ok ho => exact keep (by simp) (pop ho rfl rfl)
  | _ => exact keep (by simp) (List.Sublist.refl _)

theorem Coming.of_run {ok : Session → Act → Prop} (run : Run next ok newSession s) : s.Coming := by
  refine Run.invariant (I := Coming) ⟨by simp [coming, newSession], by simp [coming, newSession]⟩
    (fun s a s' hr h _ hn => ?_) run
  obtain ⟨out, ht⟩ := exists_trans hn
  exact h.step (Inv.of_run hr) (fun c hc hd => (acceptors hr c hc hd).ready) ht

/-- What `Accept` returns it has not returned before. -/
theorem Coming.unaccepted (h : s.Coming) {incoming : List Nat} (hin : s.incoming = c :: incoming) :
    (s.heap c).held = false :=
  h.unheld c (by rw [coming, hin]; exact List.mem_cons_self)

end Session

end Qtalk.Mux
