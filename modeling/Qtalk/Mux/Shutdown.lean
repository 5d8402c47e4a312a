import Qtalk.Mux.Lifecycle

/-!
# What the end of the loop releases

When the session loop has ended, calls of `Open` and of `Accept` may still be waiting. The
loop releases an `Open` by closing the `msg` queue of its channel, if the channel was in the
list it dropped, and an `Accept` by the one value it puts into `closeCh`.
-/

namespace Qtalk.Mux
open Qtalk.Codec Qtalk.Lib

/-! ## Open -/

namespace Channel

/-- `Open` waits on an empty queue that is not closed. -/
def Stuck (ch : Channel) : Prop := ch.opening = .waiting ∧ ch.msg = [] ∧ ch.msgClosed = false

instance (ch : Channel) : Decidable ch.Stuck := by unfold Stuck; infer_instance

/-- How a move changes what `Open` waits for. -/
theorem Move.opening {ch ch' : Channel} {who : Actor} {ms : List Message} (h : Move ch who ms ch') :
    (ch.opening = .returned → ch'.opening = .returned) ∧
      (ch.msg ≠ [] → ch'.opening = .returned ∨ ch'.msg ≠ []) ∧
      (ch'.opening = .waiting → ch.opening = .waiting ∨ who = .call (.sendOpen true)) := by
  cases h with
  | sendOpen ok ho =>
    refine ⟨fun hr => ?_, .inr, fun hw => ?_⟩
    · rw [ho] at hr
      cases hr
    · cases ok with
      | true => exact .inr rfl
      | false => cases hw
  | opened m msg ho hm => exact ⟨fun _ => rfl, fun _ => .inl rfl, fun hw => by cases hw⟩
  | openFailed msg ho hm => exact ⟨fun _ => rfl, fun _ => .inl rfl, fun hw => by cases hw⟩
  | queue c hm => exact ⟨id, fun _ => .inr (by simp), .inl⟩
  | _ => exact ⟨id, .inr, .inl⟩

/-- What closes the buffer. -/
theorem Move.closes {ch ch' : Channel} {who : Actor} {ms : List Message} (h : Move ch who ms ch')
    (hc : ch'.pending.closed = true) : ch.pending.closed = true ∨ (∃ c, who = .op (.eof c)) ∨
      ∃ m, who = .recv (.eof m) ∧ ch'.handled.any Message.isEOF = true := by
  cases h with
  | readNone hh hr | read hh hr => exact .inl ((Buffer.Read_bytes hr).2.2 ▸ hc)
  | eof c => exact .inr (.inl ⟨c, rfl⟩)
  | gotEOF m => exact .inr (.inr ⟨m, rfl, by simp [Message.isEOF]⟩)
  | _ => exact .inl hc

end Channel

namespace Session

variable {s s' : Session} {a : Act} {out : List Packet} {c : Nat}

/-- The channels have been dropped. -/
def Dropped (s : Session) : Prop := s.running = false ∧ .dropAll ∉ s.ops

instance (s : Session) : Decidable s.Dropped := by unfold Dropped; infer_instance

/-- The loop has ended. -/
def Finished (s : Session) : Prop := s.running = false ∧ s.ops = []

instance (s : Session) : Decidable s.Finished := by unfold Finished; infer_instance

theorem Finished.dropped (h : s.Finished) : s.Dropped := ⟨h.1, by rw [h.2]; simp⟩

/-- No `OpenMessage` is encoded for a channel that was registered after the drop. -/
def OpensInTime (s : Session) : Act → Prop
  | .call c (.sendOpen true) => s.Dropped → ¬ s.Listed c
  | _ => True

instance (s : Session) (a : Act) : Decidable (s.OpensInTime a) := by
  unfold OpensInTime; split <;> infer_instance

/-- Why an `Open` is going to be released. -/
structure Awaited (s : Session) (c : Nat) : Prop where
  /-- an `OpenFailureMessage` is on its way to it -/
  failed : (s.heap c).handled.any Message.isFailure = true →
    (s.heap c).opening = .returned ∨ (s.heap c).msg ≠ [] ∨ ∃ m, .queue c m ∈ s.ops
  /-- or the loop has closed its queue with those of all channels -/
  dropped : (s.heap c).opening = .waiting → s.Dropped → ¬ s.Listed c

theorem Work.dropped (h : Work s s' a) (hd : s'.Dropped) : s.Dropped ∨ s'.chanList = [] := by
  obtain ⟨hr', hn'⟩ := hd
  cases h with
  | app _ _ _ ho hr => exact .inl ⟨hr ▸ hr', ho ▸ hn'⟩
  | register _ hs =>
    subst hs
    exact .inl ⟨hr', hn'⟩
  | exit _ _ _ _ _ ho => simp [ho, exitOps] at hn'
  | take hr _ _ _ _ hs | rejectOpen _ hr hs | handleOpen _ hr _ hs =>
    subst hs
    exact absurd (hr.symm.trans hr') (by simp)
  | pop ho hd _ _ _ hr =>
    refine .inl ⟨hr.symm.trans hr', fun hin => ?_⟩
    exact (mem_tail ho hin).elim hd hn'
  | dropAll _ hs =>
    right
    rw [hs]

/-- The loop puts an `OpenFailureMessage` into the queue of its channel. -/
theorem Trans.fails (ht : Trans s a s' out) (hi : s.Inv) (hc : c < s.fresh)
    (hf : (s'.heap c).handled.any Message.isFailure = true) :
    (s.heap c).handled.any Message.isFailure = true ∨ ∃ m, .queue c m ∈ s'.ops := by
  by_cases ha : ∃ m, a = .recv (.ok m)
  · obtain ⟨m, rfl⟩ := ha
    by_cases hd : s.dest m = some c
    · obtain ⟨hm, hg⟩ := dest_eq_some.mp hd
      cases ht with
      | unknown _ _ _ hg' =>
        rw [hg] at hg'
        cases hg'
      | refuse => exact .inl hf
      | @handle _ c₀ ch ops hr ho _ _ hg' hh =>
        obtain rfl := Option.some.inj (hg'.symm.trans hg)
        obtain ⟨-, -, hhand, hops⟩ := Channel.handle_ops hh
        simp only [put_heap, Function.update_self, hhand, List.any_append, Bool.or_eq_true] at hf
        refine hf.imp_right fun hf => ?_
        cases m with
        | openFailure m =>
          rcases hops with rfl | ⟨m', hm', -⟩ | ⟨m', hm', -⟩ | ⟨m', -, rfl⟩
          · simp only [Channel.handle] at hh
            split at hh <;> cases hh
          · cases hm'
          · cases hm'
          · exact ⟨.openFailure m, by simp⟩
        | _ => simp [Message.isFailure] at hf
      | rejectOpen => cases hm
      | handleOpen => cases hm
    · rw [ht.not_handled hc hd] at hf
      exact .inl hf
  · rw [(hi.changes ht hc).handled fun m hm' => ha ⟨m, hm'⟩] at hf
    exact .inl hf

theorem Awaited.step (h : s.Awaited c) (hi : s.Inv) (hp : s.Plans) (hc : c < s.fresh)
    (hok : s.OpensInTime a) (ht : Trans s a s' out) : s'.Awaited c := by
  have hch := hi.changes ht hc
  have hw := hi.work hp ht
  have hmoved : ((s.heap c).opening = .returned → (s'.heap c).opening = .returned) ∧
      ((s.heap c).msg ≠ [] → (s'.heap c).opening = .returned ∨ (s'.heap c).msg ≠ []) ∧
      ((s'.heap c).opening = .waiting →
        (s.heap c).opening = .waiting ∨ a = .call c (.sendOpen true)) := by
    cases hch with
    | none hh _ =>
      rw [hh]
      exact ⟨id, .inr, .inl⟩
    | move hby hm hh _ =>
      obtain ⟨h1, h2, h3⟩ := hm.opening
      rw [hh]
      refine ⟨h1, h2, fun hwait => (h3 hwait).imp_right fun hwho => ?_⟩
      subst hwho
      cases hby
      rfl
  constructor
  case failed =>
    intro hf
    rcases ht.fails hi hc hf with hold | hold
    · rcases h.failed hold with hr | hm | ⟨m, hm⟩
      · exact .inl (hmoved.1 hr)
      · exact (hmoved.2.1 hm).imp_right .inl
      · rcases hw.inHand hm (.inl rfl) (by simp) with hin | ⟨-, hdone⟩
        · exact .inr (.inr ⟨m, hin⟩)
        · exact .inr (.inl hdone)
    · exact .inr (.inr hold)
  case dropped =>
    intro hwait hd hin
    rcases hw.dropped hd with hd | hl
    · refine absurd (hw.unlisted hi hc hch.extends.localId hin) ?_
      rcases hmoved.2.2 hwait with hwait | rfl
      · exact h.dropped hwait hd
      · exact hok hd
    · rw [Listed, hl] at hin
      cases hin

theorem awaited (run : Run next OpensInTime newSession s) : ∀ c < s.fresh, s.Awaited c := by
  refine Run.invariant (I := fun s => ∀ c < s.fresh, s.Awaited c)
    (fun c hc => absurd hc (Nat.not_lt_zero c)) (fun s a s' hr h hok hn c hc => ?_) run
  have hi := Inv.of_run hr
  obtain ⟨out, ht⟩ := exists_trans hn
  have hold : c < s.fresh → s'.Awaited c := fun hc => (h c hc).step hi (plans hr) hc hok ht
  rcases ht.fresh with hf | ⟨hf, hnew⟩
  · exact hold (hf ▸ hc)
  · rw [hf] at hc
    rcases Nat.lt_succ_iff_lt_or_eq.mp hc with hc | rfl
    · exact hold hc
    · rcases hnew with ⟨-, id, hnew⟩ | ⟨m, id, -, hnew⟩
      · constructor <;> simp [hnew, outboundChannel]
      · constructor <;> simp [hnew, inboundChannel, Message.isFailure]

/-- When the loop has ended, no `Open` is left waiting. -/
theorem opens_released (run : Run next OpensInTime newSession s) (hend : s.Finished) :
    ∀ c < s.fresh, ¬ (s.heap c).Stuck := by
  rintro c hc ⟨hwait, hmsg, hopen⟩
  have h := awaited run c hc
  have hnone : ∀ op, op ∉ s.ops := by
    intro op hin
    rw [hend.2] at hin
    cases hin
  have hn := h.dropped hwait hend.dropped
  cases hf : (s.heap c).handled.any Message.isFailure with
  | true =>
    rcases h.failed hf with hr | hm | ⟨m, hm⟩
    · rw [hwait] at hr
      cases hr
    · exact hm hmsg
    · exact hnone _ hm
  | false =>
    have hclosed := ((lives run c hc).wound hn hf).msg.resolve_left (hnone _)
    rw [hopen] at hclosed
    cases hclosed

/-- Two channels are registered, one before the drop; the other's `OpenMessage` is not written. -/
theorem opens_released_run : ∃ s : Session, s.Finished ∧ (s.heap 0).opening = .waiting ∧
    s.fresh = 2 ∧ ∀ c < s.fresh, ¬ (s.heap c).Stuck := by
  obtain ⟨s, run, hs⟩ := Run.of_exec next OpensInTime newSession
    ([.register, .call 0 (.sendOpen true), .recv (.error (.read .eof)), .loop false, .register] ++
      List.replicate 5 (.loop false) ++ [.call 1 (.sendOpen false), .loop false, .loop false])
    (fun s => decide (s.Finished ∧ (s.heap 0).opening = .waiting ∧ s.fresh = 2)) (by decide +kernel)
  simp only [decide_eq_true_eq] at hs
  exact ⟨s, hs.1, hs.2.1, hs.2.2, opens_released run hs.1⟩

/-- `Open` registers its channel when the others have been dropped, and its `OpenMessage` is
encoded before the connection is closed. -/
theorem open_left_waiting : ¬ ∀ s, Run next anyStep newSession s → s.Finished →
    ∀ c < s.fresh, ¬ (s.heap c).Stuck := by
  intro h
  obtain ⟨s, run, hs⟩ := Run.of_exec next anyStep newSession
    [.recv (.error (.read .eof)), .loop false, .register, .call 0 (.sendOpen true), .loop false, .loop false,
      .loop false]
    (fun s => decide (s.Finished ∧ 0 < s.fresh ∧ (s.heap 0).Stuck)) (by decide +kernel)
  simp only [decide_eq_true_eq] at hs
  exact h s run hs.1 0 hs.2.1 hs.2.2

/-! ## Read -/

/-- What closes the buffer of a channel. -/
structure EndOfStream (s : Session) (c : Nat) : Prop where
  closed : (s.heap c).pending.closed = true → (s.heap c).handled.any Message.isEOF = true ∨
    (s.heap c).handled.any Message.isClose = true ∨ s.Dropped
  closing : .eof c ∈ s.ops → (s.heap c).handled.any Message.isClose = true ∨ s.Dropped

theorem Dropped.step (h : s.Dropped) (hi : s.Inv) (hp : s.Plans) (ht : Trans s a s' out) : s'.Dropped := by
  obtain ⟨hr, hn⟩ := h
  cases hi.work hp ht with
  | app _ _ _ ho hr' => exact ⟨hr'.trans hr, ho ▸ hn⟩
  | register _ hs =>
    subst hs
    exact ⟨hr, hn⟩
  | exit _ _ hr' | take hr' | rejectOpen _ hr' | handleOpen _ hr' =>
    exact absurd (hr'.symm.trans hr) (by simp)
  | pop ho _ _ _ _ hr' =>
    refine ⟨hr'.trans hr, fun hin => hn ?_⟩
    rw [ho]
    exact List.mem_cons_of_mem _ hin
  | dropAll ho => exact absurd (by rw [ho]; exact List.mem_cons_self) hn

/-- What the loop takes in hand for the end of a stream. -/
theorem Work.eof (h : Work s s' a) (hi : s.Inv)
    (hin : .eof c ∈ s'.ops) :
    .eof c ∈ s.ops ∨ (s'.heap c).handled.any Message.isClose = true ∨ s'.Dropped := by
  cases h with
  | app _ _ _ ho => exact .inl (ho ▸ hin)
  | register _ hs =>
    subst hs
    exact .inl hin
  | exit _ _ _ _ _ ho =>
    rw [ho] at hin
    cases mem_exitOps hin (by simp) (by simp) (by simp)
  | @take m c₀ ch ops _ _ _ _ hh hs =>
    subst hs
    obtain ⟨-, -, -, rfl | ⟨m', rfl, rfl⟩ | ⟨m', -, rfl⟩ | ⟨m', -, rfl⟩⟩ := Channel.handle_ops hh
    · cases hin
    · have heq : c = c₀ := by simpa [closeOps] using hin
      right
      left
      simp [heq, Message.isClose]
    · simp at hin
    · simp at hin
  | rejectOpen _ _ hs | handleOpen _ _ _ hs =>
    subst hs
    simp at hin
  | pop ho =>
    left
    rw [ho]
    exact List.mem_cons_of_mem _ hin
  | @dropAll ops ok ho hs =>
    subst hs
    exact .inr (.inr ⟨hi.ops .dropAll (by rw [ho]; exact List.mem_cons_self), hi.drops ho⟩)

theorem EndOfStream.step (h : s.EndOfStream c) (hi : s.Inv) (hp : s.Plans) (hc : c < s.fresh)
    (ht : Trans s a s' out) : s'.EndOfStream c := by
  have hch := hi.changes ht hc
  have hext := hch.extends
  have hkeep : (s.heap c).handled.any Message.isClose = true ∨ s.Dropped →
      (s'.heap c).handled.any Message.isClose = true ∨ s'.Dropped :=
    Or.imp hext.any_handled fun hd => hd.step hi hp ht
  constructor
  case closing =>
    intro hin
    rcases (hi.work hp ht).eof hi hin with hin | hnew
    · exact hkeep (h.closing hin)
    · exact hnew
  case closed =>
    intro hcl
    have hold : (s.heap c).pending.closed = true → _ := fun hcl =>
      (h.closed hcl).imp hext.any_handled hkeep
    cases hch with
    | none hh _ => exact hold (hh ▸ hcl)
    | move hby hm hh _ =>
      rw [hh] at hcl
      rcases hm.closes hcl with hcl | ⟨c', rfl⟩ | ⟨m, rfl, heof⟩
      · exact hold hcl
      · cases hby with
        | op ok ho hc' =>
          cases hc'
          exact .inr (hkeep (h.closing (by rw [ho]; exact List.mem_cons_self)))
      · left
        rw [hh]
        exact heof

theorem endsOfStream {ok : Session → Act → Prop} (run : Run next ok newSession s) :
    ∀ c < s.fresh, s.EndOfStream c := by
  refine Run.invariant (I := fun s => ∀ c < s.fresh, s.EndOfStream c)
    (fun c hc => absurd hc (Nat.not_lt_zero c)) (fun s a s' hr h _ hn c hc => ?_) run
  have hi := Inv.of_run hr
  obtain ⟨out, ht⟩ := exists_trans hn
  have hold : c < s.fresh → s'.EndOfStream c := fun hc => (h c hc).step hi (plans hr) hc ht
  rcases (hi.work (plans hr) ht).fresh with hf | ⟨mk, ops, rfl, hl, -, hnew, hops⟩
  · exact hold (hf ▸ hc)
  · rcases Nat.lt_succ_iff_lt_or_eq.mp hc with hc | rfl
    · exact hold hc
    · refine ⟨fun hcl => ?_, fun hin => ?_⟩
      · rw [show ({ s.added mk with ops } : Session).heap s.fresh = _ from added_new s mk,
          (hnew _).2.2] at hcl
        cases hcl
      · rcases hops _ hin with hin | hin | hin
        · exact absurd (hi.ops _ hin) (Nat.lt_irrefl _)
        · cases hin
        · cases hin

/-! ## Accept -/

/-- The steps in which a call of `Accept` returns. -/
def Act.returns : Act → Bool
  | .accept | .acceptEOF => true
  | _ => false

/-- The loop puts a channel into `incomingChannels`. -/
def publishes (s : Session) : Act → Bool
  | .loop _ =>
    match s.ops with
    | .publish _ :: _ => true
    | _ => false
  | _ => false

/-- The values that the loop has yet to put into `closeCh`. -/
def signals (s : Session) : Nat := s.ops.count .signal

/-- What calls of `Accept` can return with. -/
def offers (s : Session) : Nat := s.incoming.length + s.closeCh.toNat + s.signals

theorem signals_closeOps (cs : List Nat) : (cs.flatMap closeOps).count .signal = 0 := by
  rw [List.count_eq_zero]
  intro hin
  obtain ⟨c, -, hin⟩ := List.mem_flatMap.mp hin
  simp [closeOps] at hin

theorem publishes_pop {op : LoopOp} {ops : List LoopOp} {ok : Bool} (ho : s.ops = op :: ops)
    (hop : ∀ c, op ≠ .publish c) : s.publishes (.loop ok) = false := by
  rw [publishes, ho]
  cases op with
  | publish c => exact absurd rfl (hop c)
  | _ => rfl

/-- The loop puts one value into `closeCh`, on its way out. -/
structure SignalsOnce (s : Session) : Prop where
  once : s.signals + s.closeCh.toNat ≤ 1
  running : s.running = true → s.signals = 0 ∧ s.closeCh = false

/-- What a step does to what `Accept` can return with. -/
inductive Selects (s s' : Session) (a : Act) : Prop where
  | same (ha : a.returns = false) (hp : s.publishes a = false) (hi : s'.incoming = s.incoming)
      (hc : s'.closeCh = s.closeCh) (hs : s'.signals = s.signals) (hr : s'.running = s.running)
  | accept {c : Nat} (ha : a.returns = true) (hp : s.publishes a = false)
      (hi : s.incoming = c :: s'.incoming) (hc : s'.closeCh = s.closeCh)
      (hs : s'.signals = s.signals) (hr : s'.running = s.running)
  | acceptEOF (ha : a.returns = true) (hp : s.publishes a = false) (hi : s'.incoming = s.incoming)
      (hc : s.closeCh = true) (hc' : s'.closeCh = false) (hs : s'.signals = s.signals)
      (hr : s'.running = s.running)
  | publish {c : Nat} (ha : a.returns = false) (hp : s.publishes a = true)
      (hi : s'.incoming = s.incoming ++ [c]) (hc : s'.closeCh = s.closeCh)
      (hs : s'.signals = s.signals) (hr : s'.running = s.running)
  | signal (ha : a.returns = false) (hp : s.publishes a = false) (hi : s'.incoming = s.incoming)
      (hc : s'.closeCh = true) (hs : s.signals = s'.signals + 1) (hr : s'.running = s.running)
  | exit (ha : a.returns = false) (hp : s.publishes a = false) (hi : s'.incoming = s.incoming)
      (hc : s'.closeCh = s.closeCh) (hs : s'.signals = 1) (hr : s.running = true)
      (hr' : s'.running = false)

theorem Trans.selects (ht : Trans s a s' out) (hp : s.Plans) : Selects s s' a := by
  have hpop : ∀ {op : LoopOp} {ops : List LoopOp}, s.ops = op :: ops → op ≠ .signal →
      ops.count .signal = s.ops.count .signal := by
    intro op ops ho hop
    rw [ho, List.count_cons_of_ne hop]
  cases ht with
  | accept hi => exact .accept rfl rfl hi rfl rfl rfl
  | acceptEOF hc => exact .acceptEOF rfl rfl rfl hc rfl rfl rfl
  | publish ok ho hi => exact .publish rfl (by rw [publishes, ho]) rfl rfl (hpop ho (by simp)) rfl
  | signal ok ho =>
    refine .signal rfl (publishes_pop ho (by simp)) rfl rfl ?_ rfl
    rw [signals, ho, List.count_cons_self]
    rfl
  | undecoded hr ho | unknown hr ho | refuse hr ho => exact .exit rfl rfl rfl rfl rfl hr rfl
  | confirmFailed ho | rejectFailed ho =>
    exact .exit rfl (publishes_pop ho (by simp)) rfl rfl rfl (hp.running ho rfl) rfl
  | register | call | close | outOfRange => exact .same rfl rfl rfl rfl rfl rfl
  | handle hr ho hf hm hg hh =>
    refine .same rfl rfl rfl rfl ?_ rfl
    obtain ⟨-, -, -, rfl | ⟨m', -, rfl⟩ | ⟨m', -, rfl⟩ | ⟨m', -, rfl⟩⟩ := Channel.handle_ops hh <;>
      simp [signals, ho, closeOps]
  | rejectOpen hr ho => exact .same rfl rfl rfl rfl (by simp [signals, ho]) rfl
  | handleOpen hr ho => exact .same rfl rfl rfl rfl (by simp [signals, ho]) rfl
  | @dropAll ops ok ho =>
    refine .same rfl (publishes_pop ho (by simp)) rfl rfl ?_ rfl
    show (s.chanList.dropAll.flatMap closeOps ++ ops).count .signal = s.ops.count .signal
    rw [List.count_append, signals_closeOps, hpop ho (by simp), Nat.zero_add]
  | confirm ho | reject ho | queue ok ho | queueClosed ok ho | reply ok ho | remove ok ho | eof ok ho
  | closeMsg ok ho | closeMsgTwice ok ho | markClosed ok ho | closeWin ok ho | connClose ok ho
  | setErr ok ho =>
    exact .same rfl (publishes_pop ho (by simp)) rfl rfl (hpop ho (by simp)) rfl

theorem next_fault (h : s.next a = some s') : s.fault = none := by
  simp only [next, Session.step] at h
  split at h
  · cases h
  · next hf =>
    rw [Bool.or_eq_true, not_or] at hf
    simpa using hf.1

theorem SignalsOnce.start : newSession.SignalsOnce := ⟨Nat.zero_le 1, fun _ => ⟨rfl, rfl⟩⟩

theorem SignalsOnce.step (h : s.SignalsOnce) (hs : Selects s s' a) : s'.SignalsOnce := by
  have honce := h.once
  cases hs with
  | same _ _ _ hc hs hr | accept _ _ _ hc hs hr | publish _ _ _ hc hs hr =>
    refine ⟨?_, fun hr' => ?_⟩
    · rw [hs, hc]
      exact honce
    · rw [hs, hc]
      exact h.running (hr ▸ hr')
  | acceptEOF _ _ _ hc hc' hs hr =>
    refine ⟨?_, fun hr' => ?_⟩
    · rw [hs, hc']
      rw [hc] at honce
      exact Nat.le_of_succ_le honce
    · rw [(h.running (hr ▸ hr')).2] at hc
      cases hc
  | signal _ _ _ hc hs hr =>
    refine ⟨?_, fun hr' => ?_⟩
    · rw [hc, Bool.toNat_true]
      omega
    · have := (h.running (hr ▸ hr')).1
      omega
  | exit _ _ _ hc hs hr hr' =>
    refine ⟨?_, fun hr => ?_⟩
    · rw [hs, hc, (h.running hr).2]
      exact Nat.le_refl 1
    · rw [hr'] at hr
      cases hr

/-- What a call of `Accept` returns with was on offer, and what is queued is. -/
theorem Selects.offers (h : Selects s s' a) (honce : s.SignalsOnce) :
    s'.offers + a.returns.toNat + (!s.running).toNat =
      s.offers + (s.publishes a).toNat + (!s'.running).toNat := by
  unfold Session.offers
  cases h with
  | same ha hp hi hc hs hr => rw [ha, hp, hi, hc, hs, hr]
  | accept ha hp hi hc hs hr =>
    rw [ha, hp, hi, hc, hs, hr, List.length_cons]
    simp only [Bool.toNat_true, Bool.toNat_false]
    omega
  | acceptEOF ha hp hi hc hc' hs hr =>
    rw [ha, hp, hi, hc, hc', hs, hr]
    simp only [Bool.toNat_true, Bool.toNat_false]
    omega
  | publish ha hp hi hc hs hr =>
    rw [ha, hp, hi, hc, hs, hr, List.length_append, List.length_singleton]
    simp only [Bool.toNat_true, Bool.toNat_false]
    omega
  | signal ha hp hi hc hs hr =>
    have hcl : s.closeCh = false := by
      have := honce.once
      cases h : s.closeCh with
      | false => rfl
      | true =>
        rw [h, Bool.toNat_true] at this
        omega
    rw [ha, hp, hi, hc, hs, hr, hcl]
    simp only [Bool.toNat_true, Bool.toNat_false]
    omega
  | exit ha hp hi hc hs hr hr' =>
    obtain ⟨hz, hcl⟩ := honce.running hr
    rw [ha, hp, hi, hc, hs, hr, hr', hz, hcl]
    rfl

theorem Finished.step (h : s.Finished) (ht : Trans s a s' out) : s'.Finished := by
  obtain ⟨hr, ho⟩ := h
  cases ht with
  | register | call | accept | acceptEOF | close => exact ⟨hr, ho⟩
  | outOfRange hr' | undecoded hr' | unknown hr' | refuse hr' | handle hr' | rejectOpen hr'
  | handleOpen hr' => exact absurd (hr'.symm.trans hr) (by simp)
  | publish ok ho' | confirm ho' | confirmFailed ho' | reject ho' | rejectFailed ho' | queue ok ho'
  | queueClosed ok ho' | reply ok ho' | remove ok ho' | eof ok ho' | closeMsg ok ho'
  | closeMsgTwice ok ho' | markClosed ok ho' | closeWin ok ho' | dropAll ok ho' | connClose ok ho'
  | signal ok ho' | setErr ok ho' => exact absurd (ho'.symm.trans ho) (by simp)

theorem Finished.signals (h : s.Finished) : s.signals = 0 := by
  rw [Session.signals, h.2]
  rfl

/-- A call of `Accept` can return with what is on offer. -/
theorem Finished.selectable (h : s.Finished) (hf : s.fault = none) (hpos : 0 < s.offers) :
    ∃ a s', a.returns = true ∧ s.next a = some s' := by
  cases hi : s.incoming with
  | cons c incoming =>
    refine ⟨.accept, { s.put c { s.heap c with held := true } with incoming }, rfl, ?_⟩
    simp [Session.next, Session.step, Act.writes, hf, hi]
  | nil =>
    have hc : s.closeCh = true := by
      cases hc : s.closeCh with
      | true => rfl
      | false =>
        rw [offers, hi, h.signals, hc] at hpos
        cases hpos
    refine ⟨.acceptEOF, { s with closeCh := false }, rfl, ?_⟩
    simp [Session.next, Session.step, Act.writes, hf, hc]

end Session

/-- A session and the calls of `Accept` on it. -/
structure Accepting where
  session : Session
  /-- calls inside the `select` -/
  waiting : Nat
  -- history
  calls : Nat
  /-- channels put into `incomingChannels` -/
  queued : Nat

namespace Accepting

def start : Accepting := ⟨newSession, 0, 0, 0⟩

inductive Act where
  /-- a goroutine calls `Accept` -/
  | call
  | step (a : Session.Act)

def next (v : Accepting) : Act → Option Accepting
  | .call => some { v with waiting := v.waiting + 1, calls := v.calls + 1 }
  | .step a =>
    if v.waiting < a.returns.toNat then none
    else
      match v.session.next a with
      | none => none
      | some s =>
        some { v with
          session := s
          waiting := v.waiting - a.returns.toNat
          queued := v.queued + (v.session.publishes a).toNat }

/-- A call of `Accept` has nothing to select. -/
def Blocked (v : Accepting) : Prop :=
  0 < v.waiting ∧ v.session.incoming = [] ∧ v.session.closeCh = false

instance (v : Accepting) : Decidable v.Blocked := by unfold Blocked; infer_instance

/-- Each call waits, or has got a channel that was queued or the value of `closeCh`. -/
structure Tally (v : Accepting) : Prop where
  run : Run Session.next anyStep newSession v.session
  once : v.session.SignalsOnce
  /-- the loop has not panicked when it has ended -/
  alive : v.session.fault = none ∨ v.session.running = true
  calls : v.calls + v.session.offers = v.waiting + v.queued + (!v.session.running).toNat

variable {v v' : Accepting}

theorem Tally.start : start.Tally := ⟨.start, .start, .inl rfl, rfl⟩

theorem Tally.step (h : v.Tally) {a : Act} (hn : v.next a = some v') : v'.Tally := by
  have hcalls := h.calls
  cases a with
  | call =>
    cases hn
    exact ⟨h.run, h.once, h.alive, by dsimp only; omega⟩
  | step a =>
    simp only [next] at hn
    split at hn
    · cases hn
    · next hw =>
      split at hn
      · cases hn
      · next s hs =>
        cases hn
        obtain ⟨out, ht⟩ := Session.exists_trans hs
        have hsel := ht.selects (Session.plans h.run)
        have hoffers := hsel.offers h.once
        refine ⟨h.run.step a trivial hs, h.once.step hsel, ?_, by dsimp only; omega⟩
        by_cases ha : a = .recv (.error .outOfRange)
        · subst ha
          cases ht with
          | outOfRange hr => exact .inr hr
          | undecoded _ _ he => exact absurd rfl he
        · left
          rw [show s.fault = _ from (Session.Inv.of_run h.run).fault_eq ht ha]
          exact Session.next_fault hs

theorem Tally.of_run {ok : Accepting → Act → Prop} (run : Run Accepting.next ok Accepting.start v) : v.Tally :=
  run.invariant .start fun _ _ _ _ h _ hn => h.step hn

/-- The steps other than a new call. -/
def NoCall (_ : Accepting) (a : Act) : Prop := a ≠ .call

theorem finished_step (hend : v.session.Finished) {a : Act} (ha : a ≠ .call)
    (hn : v.next a = some v') :
    v'.session.Finished ∧ v'.calls = v.calls ∧ v'.queued = v.queued := by
  cases a with
  | call => exact absurd rfl ha
  | step a =>
    simp only [next] at hn
    split at hn
    · cases hn
    · split at hn
      · cases hn
      · next s hs =>
        cases hn
        obtain ⟨out, ht⟩ := Session.exists_trans hs
        refine ⟨hend.step ht, rfl, ?_⟩
        have hp : v.session.publishes a = false := by
          cases a with
          | loop ok => rw [Session.publishes, hend.2]
          | _ => rfl
        show v.queued + _ = v.queued
        rw [hp, Bool.toNat_false, Nat.add_zero]

theorem Tally.fault (h : v.Tally) (hend : v.session.Finished) : v.session.fault = none := by
  refine h.alive.resolve_right fun hr => ?_
  rw [hend.1] at hr
  cases hr

/-- When the session has ended, calls of `Accept` take what it has to offer. -/
theorem Tally.drains (n : Nat) (h : v.Tally) (hend : v.session.Finished)
    (hn : v.session.offers = n) (hw : n < v.waiting) : ∃ v', Run next NoCall v v' ∧ v'.Blocked := by
  induction n generalizing v with
  | zero =>
    simp only [Session.offers, Nat.add_eq_zero_iff, List.length_eq_zero_iff] at hn
    exact ⟨v, .start, hw, hn.1.1, by simpa using hn.1.2⟩
  | succ n ih =>
    obtain ⟨a, s, ha, hs⟩ := hend.selectable (h.fault hend) (by omega)
    have hnext : v.next (.step a) = some { v with
        session := s, waiting := v.waiting - 1, queued := v.queued + (v.session.publishes a).toNat } := by
      rw [next, if_neg, hs, ha]
      · rfl
      · rw [ha, Bool.toNat_true]
        omega
    have htally := h.step hnext
    obtain ⟨hend', hcalls', hqueued'⟩ := finished_step hend (by simp) hnext
    have hcalls := h.calls
    have hcalls' := htally.calls
    rw [hend'.1, hqueued'] at hcalls'
    rw [hend.1] at hcalls
    dsimp only at hcalls'
    obtain ⟨v', more, hb⟩ := ih htally hend' (by dsimp only; omega) (by dsimp only; omega)
    exact ⟨v', (Run.step _ .start (by simp [NoCall]) hnext).trans more, hb⟩

/-- When the loop has ended, no call of `Accept` is left blocked, exactly if at most one more
was made than channels were queued. -/
theorem accepts_released (run : Run next anyStep start v) (hend : v.session.Finished) :
    (∀ v', Run next NoCall v v' → ¬ v'.Blocked) ↔ v.calls ≤ v.queued + 1 := by
  have htally := Tally.of_run run
  have hcalls := htally.calls
  rw [hend.1] at hcalls
  constructor
  · intro h
    by_contra hmany
    obtain ⟨v', more, hb⟩ := htally.drains _ hend rfl (by simp only [Bool.not_false, Bool.toNat_true] at hcalls; omega)
    exact h v' more hb
  · rintro hfew v' more ⟨hw, hi, hc⟩
    have hsame : v'.session.Finished ∧ v'.calls = v.calls ∧ v'.queued = v.queued := by
      refine Run.invariant (I := fun v' => v'.session.Finished ∧ v'.calls = v.calls ∧ v'.queued = v.queued)
        ⟨hend, rfl, rfl⟩ ?_ more
      rintro v1 a v2 - ⟨h1, h2, h3⟩ hok hn
      obtain ⟨h1', h2', h3'⟩ := finished_step h1 hok hn
      exact ⟨h1', h2'.trans h2, h3'.trans h3⟩
    obtain ⟨hend', hcalls', hqueued'⟩ := hsame
    have htally' := (Tally.of_run (run.trans more.any)).calls
    rw [hend'.1] at htally'
    rw [Session.offers, hi, hc, hend'.signals] at htally'
    simp only [List.length_nil, Bool.toNat_false, Bool.not_false, Bool.toNat_true] at htally'
    omega

instance (v : Accepting) (a : Act) : Decidable (NoCall v a) := by
  cases a with
  | call => exact .isFalse fun h => h rfl
  | step a => exact .isTrue fun h => by cases h

/-- A channel is queued; two calls wait when the loop has ended. -/
theorem accepts_released_run : ∃ v : Accepting, v.waiting = 2 ∧ v.session.incoming = [0] ∧
    v.session.Finished ∧ ∀ v', Run next NoCall v v' → ¬ v'.Blocked := by
  obtain ⟨v, run, hv⟩ := Run.of_exec next anyStep start
    ([.step (.recv (.ok (.openMsg ⟨7, 100, 32768⟩))), .step (.loop true), .step (.loop true), .call,
      .step (.recv (.error (.read .eof)))] ++ List.replicate 8 (.step (.loop false)) ++ [.call])
    (fun v => decide (v.waiting = 2 ∧ v.session.incoming = [0] ∧ v.session.Finished ∧
      v.calls ≤ v.queued + 1)) (by decide +kernel)
  simp only [decide_eq_true_eq] at hv
  obtain ⟨hw, hi, hend, hfew⟩ := hv
  exact ⟨v, hw, hi, hend, (accepts_released run hend).mpr hfew⟩

/-- Two calls wait when the connection ends: one of them takes the value of `closeCh`. -/
theorem accept_left_blocked : ¬ ∀ v, Run next anyStep start v → v.session.Finished → ¬ v.Blocked := by
  intro h
  obtain ⟨v, run, hv⟩ := Run.of_exec next anyStep start
    ([.call, .call, .step (.recv (.error (.read .eof)))] ++
      List.replicate 4 (.step (.loop false)) ++ [.step .acceptEOF])
    (fun v => decide (v.session.Finished ∧ v.Blocked)) (by decide +kernel)
  simp only [decide_eq_true_eq] at hv
  exact h v run hv.1 hv.2

end Accepting

end Qtalk.Mux
