import Qtalk.Js.Handshake

/-!
# The end of a session

What is left when the loop has ended. At the end of the stream `close` shuts down every
channel of the table and closes the connection; any error just ends the loop. Neither closes
`incoming`, so whatever the stream was, an `accept` behind the last queued channel is never
resolved (`never_torn_down`).
-/

namespace Qtalk.Js
open Qtalk.Lib

namespace Channel

variable {c : Chan}

theorem close_error (c : Chan) (p : Nat) : (c.close p).error = none := by
  rw [close]
  split
  · rfl
  · next hsent => rw [send, if_neg hsent]

theorem pushReady_error (hready : c.ready.closed = false) (v : Bool) : (c.pushReady v).error = none := by
  rw [pushReady, Queue.push, if_neg (by rw [hready]; exact Bool.false_ne_true)]
  cases c.ready.waiters <;> rfl

/-- A message that a channel throws at leaves it as it was. -/
theorem handle_error {p : Nat} {m : Message} {e : String} (hready : c.ready.closed = false)
    (h : (c.handle p m).error = some e) : (c.handle p m).ch = c ∧ (c.handle p m).effects = [] := by
  cases m with
  | data channelID length data =>
    rw [handle] at h ⊢
    cases hd : c.handleData length data with
    | error e => exact ⟨rfl, rfl⟩
    | ok res =>
      rw [hd] at h
      cases h
  | openConfirm channelID senderID windowSize maxPacketSize =>
    rw [handle] at h ⊢
    by_cases hmax : maxPacketSize < minPacketLength
    · rw [if_pos hmax]
      exact ⟨rfl, rfl⟩
    · rw [if_neg hmax] at h
      have hready' : ({ c with remoteId := senderID, maxRemotePayload := maxPacketSize,
                               remoteWin := c.remoteWin + windowSize } : Chan).ready.closed = false := hready
      cases h.symm.trans (pushReady_error hready' true)
  | openFailure channelID =>
    rw [handle] at h
    dsimp only at h
    rw [pushReady_error hready] at h
    cases h
  | close channelID =>
    rw [handle, close_error] at h
    cases h
  | _ => cases h

end Channel

namespace Session

/-- The promise of an `accept` that nothing has resolved: `push` takes the waiter that it
resolves out of the array, and `close` would set `closed`. -/
def Unresolved (s : Session) (p : Nat) : Prop := p ∈ s.incoming.waiters ∧ s.incoming.closed = false

/-- The session is torn down: its channels are shut down, which releases a waiting `open` as
well, pending calls of `accept` are resolved and later ones come to be, and the connection is
closed. -/
structure TornDown (s : Session) : Prop where
  channels : ∀ o, o < s.chans.length → Down (s.view o)
  pending : ∀ p, ¬ s.Unresolved p
  later : ∀ s', Run step anyStep s s' →
    ∃ s'', Run step anyStep s'.accept s'' ∧ ¬ s''.Unresolved s'.calls
  conn : s.closed = true

variable {s s' : Session} {o : Nat}

theorem shutdownAll_loop (s : Session) (ids : List Nat) : (s.shutdownAll ids).loop = s.loop := by
  induction ids generalizing s with
  | nil => rfl
  | cons id ids ih =>
    rw [shutdownAll]
    split
    · exact ih s
    · next o _ =>
      rw [ih]
      exact (enter_frame s o .shutdown).2.2.2.1

theorem accept_loop (s : Session) : s.accept.loop = s.loop := by
  rw [accept]
  split <;> rfl

/-- Behind the end of the loop only `accept` touches `incoming`, and it drops no waiter. -/
theorem Numbered.waiters (h : s.Numbered) {a : Act} (hs : s.step a = some s')
    (hloop : s.loop ≠ .running) :
    s'.loop = s.loop ∧ ∀ p ∈ s.incoming.waiters, p ∈ s'.incoming.waiters := by
  have hentered : ∀ {s1 : Session} {o call}, s1.incoming = s.incoming → s1.loop = s.loop →
      (s1.enter o call).1.loop = s.loop ∧
        ∀ p ∈ s.incoming.waiters, p ∈ (s1.enter o call).1.incoming.waiters := by
    intro s1 o call hincoming hl
    obtain ⟨-, h2, -, h4, -⟩ := enter_frame s1 o call
    exact ⟨h4.trans hl, fun p hp => by rw [h2, hincoming]; exact hp⟩
  have hcall : ∀ {o call}, s.callOn o call = some s' →
      s'.loop = s.loop ∧ ∀ p ∈ s.incoming.waiters, p ∈ s'.incoming.waiters := by
    intro o call hs
    rw [callOn] at hs
    split at hs
    · cases hs
      exact hentered rfl rfl
    · cases hs
  cases a with
  | openChannel =>
    cases hs
    exact ⟨rfl, fun _ hp => hp⟩
  | accept =>
    cases hs
    refine ⟨accept_loop s, fun p hp => ?_⟩
    rcases accept_cases h.incoming with ⟨-, heq⟩ | ⟨o, q, -, heq⟩
    · rw [heq]
      exact List.mem_append_left _ hp
    · rw [heq]
      exact hp
  | closeSession =>
    cases hs
    refine ⟨shutdownAll_loop s _, fun p hp => ?_⟩
    rw [h.close.2.2.1]
    exact hp
  | read o len => exact hcall hs
  | write o buf => exact hcall hs
  | closeWrite o => exact hcall hs
  | close o => exact hcall hs
  | resume i =>
    rw [step] at hs
    split at hs
    · cases hs
    · cases hs
      exact hentered rfl rfl
  | decoded res =>
    rw [step, if_neg (fun hc => hloop hc.1)] at hs
    cases hs

/-- What waits for `accept` behind the end of the loop waits for ever. -/
theorem Run.unresolved (more : Run step anyStep s s') (h : s.Numbered) (hloop : s.loop ≠ .running)
    {p : Nat} (hp : p ∈ s.incoming.waiters) : s'.Unresolved p := by
  have hinv : s'.Numbered ∧ s'.loop ≠ .running ∧ p ∈ s'.incoming.waiters := by
    refine more.invariant (I := fun s => s.Numbered ∧ s.loop ≠ .running ∧ p ∈ s.incoming.waiters)
      ⟨h, hloop, hp⟩ ?_
    rintro s a s' - ⟨h, hloop, hp⟩ - hs
    obtain ⟨hl, hw⟩ := h.waiters hs hloop
    exact ⟨(h.steps hs).numbered, fun hc => hloop (hl.symm.trans hc), hw p hp⟩
  exact ⟨hinv.2.2, hinv.1.incoming⟩

/-- The application can take all channels that are queued. -/
theorem exists_drained (h : s.Numbered) :
    ∃ s', Run step anyStep s s' ∧ s'.incoming.q = [] ∧ s'.loop = s.loop := by
  generalize hn : s.incoming.q.length = n
  induction n generalizing s with
  | zero => exact ⟨s, .start, List.length_eq_zero_iff.mp hn, rfl⟩
  | succ n ih =>
    rcases accept_cases h.incoming with ⟨hq, -⟩ | ⟨o, q, hq, heq⟩
    · rw [hq] at hn
      cases hn
    · have hs : s.step .accept = some s.accept := rfl
      have hlen : s.accept.incoming.q.length = n := by
        rw [hq] at hn
        rw [heq]
        exact Nat.succ.inj hn
      obtain ⟨s', run, hq', hl⟩ := ih (h.steps hs).numbered hlen
      exact ⟨s', (Run.step .accept .start trivial hs).trans run, hq', hl.trans (accept_loop s)⟩

/-- At the end of the stream the channels of the table are shut down and the connection is
closed. -/
theorem end_of_stream (h : s.Numbered) (hs : s.step (.decoded (.error .ended)) = some s') :
    s'.closed = true ∧ ∀ o, (s.view o).listed = true → Down (s'.view o) := by
  rw [step] at hs
  split at hs
  · cases hs
    refine ⟨rfl, fun o hl => ?_⟩
    have hdown : Down ((s.view o).enter .shutdown) := Handshake.down_enter rfl (List.append_nil _).symm
    have hview : (s.loopStep (.error .ended)).view o = (s.view o).shut :=
      ((same_loop s.close .returned).view o).trans (h.close.2.2.2 o)
    rw [hview, View.shut, if_pos hl]
    exact ⟨hdown.removed, hdown.unread, hdown.resolved, hdown.ready⟩
  · cases hs

theorem Numbered.handleOpen_loop (h : s.Numbered) (senderID windowSize maxPacketSize : Nat) :
    (s.handleOpen senderID windowSize maxPacketSize).loop = s.loop := by
  by_cases hmax : maxPacketSize < Channel.minPacketLength
  · rw [handleOpen, if_pos hmax]
  · cases hp : s.incoming.push s.chans.length with
    | none =>
      rw [Queue.push, h.incoming] at hp
      simp only [Bool.false_eq_true, if_false] at hp
      split at hp <;> cases hp
    | some res =>
      rw [handleOpen_accepted senderID windowSize hmax hp]

/-- A message that a channel throws at. -/
theorem Numbered.message_spares (h : s.Numbered) {k : Nat} {m : Message} (hid : m.channelID = k)
    {e : String} (he : (s.promise.enter k (.handle s.calls m)).2 = some e) (hl : Live (s.view o)) :
    Live ((s.promise.enter k (.handle s.calls m)).1.view o) := by
  cases hc : s.chans[k]? with
  | none =>
    have hnone : s.promise.chans[k]? = none := hc
    rw [Session.enter, hnone] at he
    cases he
  | some c =>
    have hpc : s.promise.chans[k]? = some c := hc
    have hp : s.promise.Numbered := (same_promise s).numbered h
    have hv := hp.view_enter hpc (show Call.For k (.handle s.calls m) from hid) o
    rw [(same_promise s).view, (same_promise s).view] at hv
    rw [hv]
    by_cases heq : o = k
    · subst heq
      rw [if_pos rfl]
      rw [enter_some hpc] at he
      have hch := view_ch hc
      have hready := hl.ready
      rw [hch] at hready
      obtain ⟨hsame, hnone⟩ := Channel.handle_error hready he
      rw [View.enter_eq, hch, Channel.enter, hsame, hnone]
      exact ⟨(Bool.and_true _).trans hl.listed, hready⟩
    · rw [if_neg heq]
      exact hl

/-- An error of the decoder or of a channel shuts nothing down: whatever was live stays so, and
the connection stays as it was. -/
theorem error_spares (h : s.Numbered) {res : Except DecodeError Message}
    (hs : s.step (.decoded res) = some s') (hthrew : s'.loop = .threw) :
    s'.closed = s.closed ∧ ∀ o, Live (s.view o) → Live (s'.view o) := by
  rw [step] at hs
  split at hs
  · next hrun =>
    cases hs
    cases res with
    | error e =>
      cases e with
      | ended => cases hthrew
      | _ => exact ⟨rfl, fun _ hl => hl⟩
    | ok m =>
      cases hm : m.isOpen with
      | true =>
        cases m with
        | openMsg senderID windowSize maxPacketSize =>
          -- the channel is always made, or refused
          have hloop := (h.handleOpen_loop senderID windowSize maxPacketSize).trans hrun.1
          rw [loopStep, hloop] at hthrew
          cases hthrew
        | _ => cases hm
      | false =>
        rw [loopStep_ok hm] at hthrew ⊢
        cases hg : s.getCh m.channelID with
        | none => exact ⟨rfl, fun _ hl => hl⟩
        | some k =>
          have hid : m.channelID = k := h.slots _ _ hg
          obtain ⟨-, -, hclosed, hloop, -⟩ := enter_frame s.promise k (.handle s.calls m)
          have hspares : ∀ {e}, (s.promise.enter k (.handle s.calls m)).2 = some e →
              ∀ o, Live (s.view o) → Live ((s.promise.enter k (.handle s.calls m)).1.view o) :=
            fun he o hl => h.message_spares hid he hl
          rw [hg] at hthrew
          dsimp only at hthrew ⊢
          generalize s.promise.enter k (.handle s.calls m) = res at hthrew hclosed hloop hspares
          obtain ⟨s1, err⟩ := res
          cases err with
          | none =>
            rw [hloop.trans hrun.1] at hthrew
            cases hthrew
          | some e => exact ⟨hclosed, hspares rfl⟩
  · cases hs

/-- **A session whose loop has ended is not torn down**, whatever it read and however the
loop ended: `accept` calls behind the queued channels stay unresolved for ever. -/
theorem never_torn_down (run : Run step anyStep new s) (hloop : s.loop ≠ .running) : ¬ s.TornDown := by
  intro h
  obtain ⟨s', more, hq, hl⟩ := exists_drained (Run.numbered run)
  have hnum : s'.Numbered := Run.numbered (run.trans more)
  have hs : s'.step .accept = some s'.accept := rfl
  obtain ⟨s'', rest, hresolved⟩ := h.later s' more
  have hp : s'.calls ∈ s'.accept.incoming.waiters := by
    rcases accept_cases hnum.incoming with ⟨-, heq⟩ | ⟨o, q, hq', -⟩
    · rw [heq]
      exact List.mem_append_right _ List.mem_cons_self
    · rw [hq] at hq'
      cases hq'
  have hloop' : s'.accept.loop ≠ .running := by
    rw [accept_loop, hl]
    exact hloop
  exact hresolved (Run.unresolved rest (hnum.steps hs).numbered hloop' hp)

/-- The loop of a session with one channel has come to the end of the stream. -/
theorem never_torn_down_run :
    ∃ s, Run step anyStep new s ∧ (s.loop = .returned ∧ Down (s.view 0) ∧ s.closed = true) ∧
      ¬ s.TornDown := by
  obtain ⟨s, run, hs⟩ := Run.of_exec step anyStep new
    [.decoded (.ok (.openMsg 7 100 32768)), .read 0 4, .decoded (.error .ended)]
    (fun s => decide (s.loop = .returned ∧ ((s.view 0).listed = false ∧ (s.view 0).ch.readBuf = none ∧
      (∀ r ∈ (s.view 0).ch.readers, (r.1, Value.undefined) ∈ (s.view 0).settled) ∧
      (s.view 0).ch.ready.closed = true) ∧ s.closed = true)) (by decide +kernel)
  simp only [decide_eq_true_eq] at hs
  obtain ⟨hl, ⟨h1, h2, h3, h4⟩, hc⟩ := hs
  refine ⟨s, run, ⟨hl, ⟨h1, h2, h3, h4⟩, hc⟩, never_torn_down run ?_⟩
  rw [hl]
  exact Loop.noConfusion

/-- The stream ends at once while an `accept` waits: it is not resolved. -/
theorem accept_left_waiting :
    ¬ ∀ s, Run step anyStep new s → s.loop ≠ .running → s.TornDown := by
  intro h
  obtain ⟨s, run, hs⟩ := Run.of_exec step anyStep new [.accept, .decoded (.error .ended)]
    (fun s => decide (s.loop ≠ .running ∧ 0 ∈ s.incoming.waiters ∧ s.incoming.closed = false))
    (by decide +kernel)
  simp only [decide_eq_true_eq] at hs
  obtain ⟨hloop, hw, hc⟩ := hs
  exact (h s run hloop).pending 0 ⟨hw, hc⟩

end Session

end Qtalk.Js
