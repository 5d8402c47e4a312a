import Qtalk.Mux.Shutdown

/-!
# What `Open` waits for

A response to an `Open` that `handle` has accepted is put into the `msg` queue of its channel, and
nothing else is. So while the loop runs, an `Open` that still waits finds it there, or the loop has
it in hand (`Notified`).
-/

namespace Qtalk.Mux
open Qtalk.Codec Qtalk.Lib

/-- Nothing but the loop puts a message into the queue. -/
theorem Channel.Move.queued {ch ch' : Channel} {who : Channel.Actor} {ms : List Message}
    (h : Channel.Move ch who ms ch') {m : Message} (hm : m ∈ ch'.msg) :
    m ∈ ch.msg ∨ ∃ c, who = .op (.queue c m) := by
  cases h with
  | opened m' msg ho hq => exact .inl (hq ▸ List.mem_cons_of_mem _ hm)
  | openFailed msg ho hq => exact .inl (hq m hm)
  | queue c =>
    rcases List.mem_append.mp hm with hm | hm
    · exact .inl hm
    · exact .inr ⟨c, by rw [List.mem_singleton.mp hm]⟩
  | _ => exact .inl hm

namespace Session

variable {s s' : Session} {a : Act} {out : List Packet} {c : Nat}

/-- Only responses are to be queued. -/
theorem Trans.queues (ht : Trans s a s' out) {m : Message} (hq : .queue c m ∈ s'.ops) :
    .queue c m ∈ s.ops ∨ m.isResponse = true := by
  cases ht with
  | undecoded | unknown | refuse | confirmFailed | rejectFailed => simp [Session.exit, exitOps] at hq
  | rejectOpen | handleOpen => simp at hq
  | handle _ _ _ _ _ hh =>
    obtain ⟨-, -, -, rfl | ⟨m', rfl, rfl⟩ | ⟨m', rfl, rfl⟩ | ⟨m', rfl, rfl⟩⟩ := Channel.handle_ops hh
    · cases hq
    · simp [closeOps] at hq
    · obtain ⟨-, rfl⟩ : _ ∧ m = .openConfirm m' := by simpa using hq
      exact .inr rfl
    · obtain ⟨-, rfl⟩ : _ ∧ m = .openFailure m' := by simpa using hq
      exact .inr rfl
  | dropAll ok ho =>
    left
    rw [ho]
    simpa [closeOps] using hq
  | publish ok ho | confirm ho | reject ho | queue ok ho | queueClosed ok ho | reply ok ho
  | remove ok ho | eof ok ho | closeMsg ok ho | closeMsgTwice ok ho | markClosed ok ho
  | closeWin ok ho | connClose ok ho | signal ok ho | setErr ok ho =>
    rw [ho]
    exact .inl (List.mem_cons_of_mem _ hq)
  | _ => exact .inl hq

/-- A response that `handle` accepts is to be queued. -/
theorem Trans.answers (ht : Trans s a s' out) (hi : s.Inv) (hc : c < s.fresh)
    (hr : (s'.heap c).handled.any Message.isResponse = true) :
    (s.heap c).handled.any Message.isResponse = true ∨ ∃ m, .queue c m ∈ s'.ops := by
  by_cases ha : ∃ m, a = .recv (.ok m)
  · obtain ⟨m, rfl⟩ := ha
    by_cases hd : s.dest m = some c
    · obtain ⟨hm, hg⟩ := dest_eq_some.mp hd
      cases ht with
      | unknown _ _ _ hg' =>
        rw [hg] at hg'
        cases hg'
      | refuse => exact .inl hr
      | @handle _ c₀ ch ops _ ho _ _ hg' hh =>
        obtain rfl := Option.some.inj (hg'.symm.trans hg)
        obtain ⟨-, -, hhand, hops⟩ := Channel.handle_ops hh
        simp only [put_heap, Function.update_self, hhand, List.any_append, Bool.or_eq_true] at hr
        refine hr.imp_right fun hr => ?_
        rcases hops with rfl | ⟨m', rfl, rfl⟩ | ⟨m', rfl, rfl⟩ | ⟨m', rfl, rfl⟩
        · -- a response always has an operation
          cases m with
          | openConfirm m =>
            simp only [Channel.handle] at hh
            repeat' split at hh
            all_goals cases hh
          | openFailure m =>
            simp only [Channel.handle] at hh
            split at hh <;> cases hh
          | _ => simp [Message.isResponse, Message.isConfirm, Message.isFailure] at hr
        · simp [Message.isResponse, Message.isConfirm, Message.isFailure] at hr
        · exact ⟨.openConfirm m', by simp⟩
        · exact ⟨.openFailure m', by simp⟩
      | rejectOpen => cases hm
      | handleOpen => cases hm
    · rw [ht.not_handled hc hd] at hr
      exact .inl hr
  · rw [(hi.changes ht hc).handled fun m hm => ha ⟨m, hm⟩] at hr
    exact .inl hr

/-- The response to an `Open` is on its way to it. -/
structure Notified (s : Session) (c : Nat) : Prop where
  responses : ∀ m, m ∈ (s.heap c).msg ∨ .queue c m ∈ s.ops → m.isResponse = true
  answered : (s.heap c).handled.any Message.isResponse = true →
    (s.heap c).opening = .returned ∨ (s.heap c).msg ≠ [] ∨ ∃ m, .queue c m ∈ s.ops

theorem Notified.step (h : s.Notified c) (hi : s.Inv) (hp : s.Plans) (hc : c < s.fresh)
    (ht : Trans s a s' out) : s'.Notified c := by
  have hch := hi.changes ht hc
  constructor
  case responses =>
    rintro m (hm | hq)
    · cases hch with
      | none hh _ =>
        rw [hh] at hm
        exact h.responses m (.inl hm)
      | move hby hmove hh _ =>
        rw [hh] at hm
        rcases hmove.queued hm with hm | ⟨c', rfl⟩
        · exact h.responses m (.inl hm)
        · cases hby with
          | op ok ho hc' =>
            cases hc'
            exact h.responses m (.inr (ho ▸ List.mem_cons_self))
    · exact (ht.queues hq).elim (fun hq => h.responses m (.inr hq)) id
  case answered =>
    have hmoved : ((s.heap c).opening = .returned → (s'.heap c).opening = .returned) ∧
        ((s.heap c).msg ≠ [] → (s'.heap c).opening = .returned ∨ (s'.heap c).msg ≠ []) := by
      cases hch with
      | none hh _ =>
        rw [hh]
        exact ⟨id, .inr⟩
      | move _ hm hh _ =>
        obtain ⟨h1, h2, -⟩ := hm.opening
        rw [hh]
        exact ⟨h1, h2⟩
    intro hr
    rcases ht.answers hi hc hr with hold | hnew
    · rcases h.answered hold with hr | hm | ⟨m, hm⟩
      · exact .inl (hmoved.1 hr)
      · exact (hmoved.2 hm).imp_right .inl
      · rcases (hi.work hp ht).inHand hm (.inl rfl) (by simp) with hin | ⟨-, hdone⟩
        · exact .inr (.inr ⟨m, hin⟩)
        · exact .inr (.inl hdone)
    · exact .inr (.inr hnew)

theorem notified {ok : Session → Act → Prop} (run : Run next ok newSession s) :
    ∀ c < s.fresh, s.Notified c := by
  refine Run.invariant (I := fun s => ∀ c < s.fresh, s.Notified c)
    (fun c hc => absurd hc (Nat.not_lt_zero c)) (fun s a s' hr h _ hn c hc => ?_) run
  have hi := Inv.of_run hr
  obtain ⟨out, ht⟩ := exists_trans hn
  rcases ht.fresh with hf | ⟨hf, hnew⟩
  · exact (h c (hf ▸ hc)).step hi (plans hr) (hf ▸ hc) ht
  · rw [hf] at hc
    rcases Nat.lt_succ_iff_lt_or_eq.mp hc with hc | rfl
    · exact (h c hc).step hi (plans hr) hc ht
    · have hmsg : (s'.heap s.fresh).msg = [] ∧ (s'.heap s.fresh).handled.any Message.isResponse = false := by
        rcases hnew with ⟨-, id, hnew⟩ | ⟨m, id, -, hnew⟩
        · rw [hnew]
          exact ⟨rfl, rfl⟩
        · rw [hnew]
          exact ⟨rfl, rfl⟩
      constructor
      case responses =>
        rintro m (hm | hq)
        · rw [hmsg.1] at hm
          cases hm
        · refine (ht.queues hq).resolve_left fun hold => ?_
          exact Nat.lt_irrefl _ (hi.ops _ hold).1
      case answered =>
        intro hr
        rw [hmsg.2] at hr
        cases hr

/-- What is left where the queue is closed: the channel was closed, and its `Open` answered. -/
theorem Notified.waiting (h : s.Notified c) (hi : s.Inv) (hl : s.Life c) (hr : s.running = true)
    (hheard : (s.heap c).handled.any Message.isClose = true →
      (s.heap c).handled.any Message.isResponse = true)
    (hw : (s.heap c).opening = .waiting) (hm : (s.heap c).msgClosed = true) : (s.heap c).msg ≠ [] := by
  have hun : ¬ s.Listed c := fun hin => by
    rw [(hi.listed _ c hin).2.2] at hm
    cases hm
  have hresp : (s.heap c).handled.any Message.isResponse = true := by
    rcases hl.gone hun with hend | ⟨hstop, -⟩
    · rw [Channel.ended, Bool.or_eq_true] at hend
      refine hend.elim hheard fun hf => ?_
      obtain ⟨m, hin, hf⟩ := List.any_eq_true.mp hf
      exact List.any_eq_true.mpr ⟨m, hin, by rw [Message.isResponse, hf, Bool.or_true]⟩
    · rw [hr] at hstop
      cases hstop
  rcases h.answered hresp with ho | hmsg | ⟨m, hq⟩
  · rw [hw] at ho
    cases ho
  · exact hmsg
  · rw [(hi.ops _ hq).2.2] at hm
    cases hm

end Session

end Qtalk.Mux
