import Qtalk.Mux.Opening

/-!
# The answer to an open

`responseMessageReceived` is there "to check that such a message is reasonable for the given
channel", but it looks at the direction only. An outbound channel takes every OpenConfirm
that comes: the second one overwrites `remoteId` and `maxRemotePayload`, which are read-only
after creation, and is queued though nobody takes it; a late OpenFailure drops the channel
without closing it. Where neither arrives, an outbound channel is decided once
(`decided_once`).
-/

namespace Qtalk.Mux
open Qtalk.Codec Qtalk.Lib

namespace Channel

/-- The open responses that a channel has accepted. -/
def responses (ch : Channel) : List Message := ch.handled.filter Message.isResponse

/-- A call of the application adds nothing to `msg`. -/
theorem step_msg {ch : Channel} {a : Step} {r : Channel × List Message} (h : ch.step a = some r) :
    r.1.msg.length ≤ ch.msg.length := by
  cases a with
  | opened =>
    rw [step] at h
    cases ho : ch.opened with
    | none =>
      rw [ho] at h
      cases h
    | some ch' =>
      rw [ho] at h
      cases h
      rw [opened] at ho
      split at ho
      · split at ho
        · next hm =>
          cases ho
          simp [hm]
        · next hm =>
          cases ho
          simp [hm]
        · split at ho
          · cases ho
            exact Nat.le_refl _
          · cases ho
      · cases ho
  | _ =>
    obtain ⟨ch', ms⟩ := r
    have hm := Move.of_step h
    cases hm <;> exact Nat.le_refl _

theorem Move.recv_frame {ch ch' : Channel} {m : Message} {ms : List Message} (h : Move ch (.recv m) ms ch') :
    ch'.msg = ch.msg ∧ ch'.localId = ch.localId := by
  cases h <;> exact ⟨rfl, rfl⟩

/-- The channel has accepted one open response at most, and is what the confirmation made it. -/
structure Decided (ch : Channel) : Prop where
  once : ch.responses.length ≤ 1
  fixed : ∀ m, .openConfirm m ∈ ch.handled →
    ch.remoteId = m.senderID ∧ ch.maxRemotePayload = m.maxPacketSize

theorem Decided.same {ch ch' : Channel} (h : ch.Decided) (hh : ch'.handled = ch.handled)
    (hr : ch'.remoteId = ch.remoteId) (hp : ch'.maxRemotePayload = ch.maxRemotePayload) : ch'.Decided := by
  refine ⟨?_, fun m hm => ?_⟩
  · rw [responses, hh]
    exact h.once
  · rw [hr, hp]
    exact h.fixed m (hh ▸ hm)

/-- A message other than a response. -/
theorem Decided.handles {ch ch' : Channel} {m : Message} (h : ch.Decided) (hm : m.isResponse = false)
    (hh : ch'.handled = ch.handled ++ [m]) (hr : ch'.remoteId = ch.remoteId)
    (hp : ch'.maxRemotePayload = ch.maxRemotePayload) : ch'.Decided := by
  refine ⟨?_, fun m' hm' => ?_⟩
  · have honce := h.once
    rw [responses] at honce ⊢
    rw [hh, List.filter_append, List.filter_cons, hm]
    simpa using honce
  · rw [hh, List.mem_append, List.mem_singleton] at hm'
    rw [hr, hp]
    refine h.fixed m' (hm'.resolve_right fun heq => ?_)
    rw [← heq] at hm
    cases hm

/-- A change keeps the decision, unless it is a second response. -/
theorem Decided.move {ch ch' : Channel} {who : Actor} {ms : List Message} (h : ch.Decided)
    (hm : Move ch who ms ch')
    (hfirst : ∀ m, who = .recv m → m.isResponse = true → ch.responses = []) : (ch'.sends ms).Decided := by
  have hconfirm : ∀ {m} {ch'' : Channel}, ch.responses = [] → ch''.handled = ch.handled ++ [.openConfirm m] →
      ch''.remoteId = m.senderID → ch''.maxRemotePayload = m.maxPacketSize → ch''.Decided := by
    intro m ch'' hnone hh hr hp
    rw [responses] at hnone
    refine ⟨?_, fun m' hm' => ?_⟩
    · rw [responses, hh, List.filter_append, hnone]
      exact Nat.le_refl _
    · rw [hh, List.mem_append, List.mem_singleton] at hm'
      rcases hm' with hm' | hm'
      · have hmem : .openConfirm m' ∈ ch.handled.filter Message.isResponse := List.mem_filter.mpr ⟨hm', rfl⟩
        rw [hnone] at hmem
        cases hmem
      · cases hm'
        exact ⟨hr, hp⟩
  cases hm with
  | gotData | gotEOF | gotClose | gotAdjust => exact h.handles rfl rfl rfl rfl
  | gotConfirm | gotConfirmOver => exact hconfirm (hfirst _ rfl rfl) rfl rfl rfl
  | gotFailure m hd =>
    have hnone := hfirst _ rfl rfl
    rw [responses] at hnone
    refine ⟨?_, fun m' hm' => ?_⟩
    · rw [responses, sends, List.filter_append, hnone]
      exact Nat.le_refl _
    · rw [sends, List.mem_append, List.mem_singleton] at hm'
      exact h.fixed m' (hm'.resolve_right (by simp))
  | _ => exact h.same rfl rfl rfl

/-- A channel that was confirmed was not refused as well. -/
theorem Decided.not_failed {ch : Channel} (h : ch.Decided)
    (hc : ch.handled.any Message.isConfirm = true) : ch.handled.any Message.isFailure = false := by
  rw [Bool.eq_false_iff]
  intro hf
  obtain ⟨m, hm, hconfirm⟩ := List.any_eq_true.mp hc
  obtain ⟨m', hm', hfailure⟩ := List.any_eq_true.mp hf
  have hmem : m ∈ ch.responses := List.mem_filter.mpr ⟨hm, by rw [Message.isResponse, hconfirm]; rfl⟩
  have hmem' : m' ∈ ch.responses :=
    List.mem_filter.mpr ⟨hm', by rw [Message.isResponse, hfailure, Bool.or_true]⟩
  have honce := h.once
  cases hr : ch.responses with
  | nil =>
    rw [hr] at hmem
    cases hmem
  | cons r rs =>
    rw [hr, List.length_cons] at honce
    have hnil : rs = [] := List.length_eq_zero_iff.mp (by omega)
    rw [hr, hnil, List.mem_singleton] at hmem hmem'
    rw [hmem'.trans hmem.symm] at hfailure
    cases m with
    | openConfirm m => cases hfailure
    | _ => cases hconfirm

end Channel

namespace Session

variable {s s' : Session}

/-- How many responses for channel `c` the loop has yet to queue. -/
def inHand (c : Nat) (ops : List LoopOp) : Nat :=
  ops.countP fun | .queue c' _ => c' == c | _ => false

/-- Responses are queued once each, and a failed open takes its channel out of the list. -/
structure Answers (s : Session) : Prop where
  queued : ∀ c < s.fresh, inHand c s.ops + (s.heap c).msg.length ≤ (s.heap c).responses.length
  failed : ∀ c < s.fresh, (s.heap c).handled.any Message.isFailure = true →
    ChanList.slot s.chanList (s.heap c).localId.toNat = some c → .remove (s.heap c).localId ∈ s.ops

theorem inHand_exitOps (c : Nat) (e : LoopError) : inHand c (exitOps e) = 0 := rfl

theorem inHand_tail (c : Nat) (op : LoopOp) (ops : List LoopOp) : inHand c ops ≤ inHand c (op :: ops) := by
  rw [inHand, inHand, List.countP_cons]
  exact Nat.le_add_right _ _

theorem inHand_dropAll (c : Nat) (cs : List Nat) (ops : List LoopOp) :
    inHand c (cs.flatMap closeOps ++ ops) = inHand c ops := by
  induction cs with
  | nil => rfl
  | cons c' cs ih => exact ih

/-- Steps that hand nothing to a channel and add nothing to the queues. -/
theorem Answers.keep (h : s.Answers) (hfresh : s'.fresh = s.fresh)
    (hheap : ∀ c < s.fresh, (s'.heap c).handled = (s.heap c).handled ∧
      (s'.heap c).localId = (s.heap c).localId)
    (hqueue : ∀ c < s.fresh, inHand c s'.ops + (s'.heap c).msg.length
      ≤ inHand c s.ops + (s.heap c).msg.length)
    (hslot : ∀ i c, ChanList.slot s'.chanList i = some c →
      ChanList.slot s.chanList i = some c ∧ (.remove (UInt32.ofNat i) ∈ s.ops → .remove (UInt32.ofNat i) ∈ s'.ops)) :
    s'.Answers where
  queued c hc := by
    rw [hfresh] at hc
    obtain ⟨hh, -⟩ := hheap c hc
    rw [Channel.responses, hh]
    exact Nat.le_trans (hqueue c hc) (h.queued c hc)
  failed c hc hf hl := by
    rw [hfresh] at hc
    obtain ⟨hh, hid⟩ := hheap c hc
    rw [hh] at hf
    rw [hid] at hl ⊢
    obtain ⟨hold, hrem⟩ := hslot _ c hl
    rw [UInt32.ofNat_toNat] at hrem
    exact hrem (h.failed c hc hf hold)

theorem update_msg {c₀ : Nat} {ch : Channel} (h : ch.msg = (s.heap c₀).msg) (c : Nat) :
    (Function.update s.heap c₀ ch c).msg = (s.heap c).msg := by
  by_cases hc : c = c₀
  · rw [hc, Function.update_self, h]
  · rw [Function.update_of_ne hc]

/-- The loop does an operation that is neither a removal nor a queueing. -/
theorem Answers.pop (h : s.Answers) {op : LoopOp} {ops : List LoopOp} (ho : s.ops = op :: ops)
    (hop : ∀ id, op ≠ .remove id) (hfresh : s'.fresh = s.fresh) (hchan : s'.chanList = s.chanList)
    (hops : s'.ops = ops)
    (hheap : ∀ c < s.fresh, (s'.heap c).handled = (s.heap c).handled ∧
      (s'.heap c).localId = (s.heap c).localId)
    (hmsg : ∀ c, (s'.heap c).msg = (s.heap c).msg) : s'.Answers := by
  refine h.keep hfresh hheap (fun c hc => ?_) (fun i c hi => ?_)
  · rw [hops, hmsg, ho]
    exact Nat.add_le_add_right (inHand_tail c op ops) _
  · rw [hchan] at hi
    refine ⟨hi, fun hrem => ?_⟩
    rw [ho, List.mem_cons] at hrem
    rw [hops]
    exact hrem.resolve_left fun heq => hop _ heq.symm

/-- The loop ends while no removal is in hand. -/
theorem Answers.exit (h : s.Answers) (hnone : ∀ id, .remove id ∉ s.ops) {e : LoopError}
    (hfresh : s'.fresh = s.fresh) (hchan : s'.chanList = s.chanList) (hops : s'.ops = exitOps e)
    (hheap : ∀ c < s.fresh, (s'.heap c).handled = (s.heap c).handled ∧
      (s'.heap c).localId = (s.heap c).localId)
    (hmsg : ∀ c, (s'.heap c).msg = (s.heap c).msg) : s'.Answers := by
  refine h.keep hfresh hheap (fun c hc => ?_) (fun i c hi => ?_)
  · rw [hops, hmsg, inHand_exitOps]
    omega
  · rw [hchan] at hi
    exact ⟨hi, fun hrem => absurd hrem (hnone _)⟩

theorem Answers.added (h : s.Answers) (hi : s.Inv) (hl : s.chanList.length + 1 < 2 ^ 32)
    {mk : UInt32 → Channel} (hnew : ∀ id, (mk id).responses = [] ∧ (mk id).msg = [] ∧
      (mk id).handled.any Message.isFailure = false)
    {ops : List LoopOp} (hops : ∀ c, inHand c ops ≤ inHand c s.ops)
    (hrem : ∀ id, .remove id ∈ s.ops → .remove id ∈ ops) :
    Answers { s.added mk with ops } := by
  refine ⟨fun c hc => ?_, fun c hc hf hl' => ?_⟩
  · rcases Nat.lt_succ_iff_lt_or_eq.mp hc with hlt | rfl
    · dsimp only
      rw [added_old s mk hlt]
      exact Nat.le_trans (Nat.add_le_add_right (hops c) _) (h.queued c hlt)
    · have hzero : inHand s.fresh s.ops = 0 := by
        rw [inHand, List.countP_eq_zero]
        intro op hop
        have hok := hi.ops op hop
        cases op with
        | queue c m =>
          have hlt : c < s.fresh := hok.1
          simp [Nat.ne_of_lt hlt]
        | _ => simp
      obtain ⟨hr, hm, -⟩ := hnew (s.chanList.add s.fresh).2
      dsimp only
      rw [added_new, hr, hm]
      have hle := hops s.fresh
      rw [hzero] at hle
      exact hle
  · rcases Nat.lt_succ_iff_lt_or_eq.mp hc with hlt | rfl
    · dsimp only at hf hl' ⊢
      rw [added_old s mk hlt] at hf hl' ⊢
      rw [added_slot mk hl] at hl'
      split at hl'
      · cases hl'
        exact absurd hlt (Nat.lt_irrefl _)
      · exact hrem _ (h.failed c hlt hf hl')
    · obtain ⟨-, -, hn⟩ := hnew (s.chanList.add s.fresh).2
      dsimp only at hf
      rw [added_new, hn] at hf
      cases hf

/-- A message is handed to a channel. -/
theorem Answers.handle (h : s.Answers) (hi : s.Inv) (ho : s.ops = []) {m : Message} {c₀ : Nat}
    {ch : Channel} {ops : List LoopOp} (hf : Decoded (.ok m))
    (hg : s.chanList.getChan m.channel.1 = some c₀) (hh : (s.heap c₀).handle c₀ m = .ok (ch, ops)) :
    Answers { s.put c₀ { ch with handled := ch.handled ++ [m] } with ops } := by
  have hslot : ChanList.slot s.chanList m.channel.1.toNat = some c₀ := by
    rw [← ChanList.getChan_eq hi.short]
    exact hg
  obtain ⟨-, hid, -⟩ := hi.listed _ c₀ hslot
  obtain ⟨-, -, hhandled, hops⟩ := Channel.handle_ops hh
  obtain ⟨hmsg, hlocal⟩ := (Channel.Move.of_handle hf hh).recv_frame
  dsimp only at hmsg hlocal
  refine ⟨fun c hc => ?_, fun c hc hfail hl => ?_⟩
  · have hold := h.queued c hc
    rw [ho] at hold
    have hzero : inHand c [] = 0 := rfl
    rw [hzero, Nat.zero_add] at hold
    dsimp only
    rw [put_heap]
    by_cases heq : c = c₀
    · subst heq
      rw [Function.update_self, Channel.responses, hmsg, hhandled, List.filter_append, List.length_append]
      rw [Channel.responses] at hold
      rcases hops with rfl | ⟨m', -, rfl⟩ | ⟨m', rfl, rfl⟩ | ⟨m', rfl, rfl⟩
      · rw [hzero]
        omega
      · have hclose : inHand c (.reply c :: .remove (s.heap c).localId :: closeOps c) = 0 := rfl
        rw [hclose]
        omega
      · have hone : inHand c [.queue c (.openConfirm m')] = 1 := by simp [inHand]
        have hlen : ([Message.openConfirm m'].filter Message.isResponse).length = 1 := rfl
        rw [hone, hlen]
        omega
      · have hone : inHand c [.remove m'.channelID, .queue c (.openFailure m')] = 1 := by simp [inHand]
        have hlen : ([Message.openFailure m'].filter Message.isResponse).length = 1 := rfl
        rw [hone, hlen]
        omega
    · have hnone : inHand c ops = 0 := by
        rcases hops with rfl | ⟨m', -, rfl⟩ | ⟨m', -, rfl⟩ | ⟨m', -, rfl⟩
        · rfl
        · rfl
        · simp [inHand, Ne.symm heq]
        · simp [inHand, Ne.symm heq]
      rw [Function.update_of_ne heq, hnone, Nat.zero_add]
      exact hold
  · have hbefore : (s.heap c).handled.any Message.isFailure = true →
        ChanList.slot s.chanList (s.heap c).localId.toNat = some c → False := by
      intro hf hs
      have hmem := h.failed c hc hf hs
      rw [ho] at hmem
      cases hmem
    dsimp only at hfail hl ⊢
    rw [put_heap] at hfail hl ⊢
    by_cases heq : c = c₀
    · subst heq
      rw [Function.update_self] at hfail hl ⊢
      dsimp only at hfail hl ⊢
      rw [hlocal] at hl ⊢
      rw [hhandled, List.any_append, Bool.or_eq_true] at hfail
      rcases hfail with hfail | hfail
      · exact (hbefore hfail hl).elim
      · rcases hops with rfl | ⟨m', rfl, rfl⟩ | ⟨m', rfl, rfl⟩ | ⟨m', rfl, rfl⟩
        · cases m with
          | openFailure m' =>
            rw [Channel.handle] at hh
            split at hh <;> cases hh
          | _ => cases hfail
        · cases hfail
        · cases hfail
        · have hsame : (s.heap c).localId = m'.channelID := UInt32.toNat_inj.mp hid
          rw [hsame]
          exact List.mem_cons_self
    · rw [Function.update_of_ne heq] at hfail hl
      exact (hbefore hfail hl).elim

/-- What was in hand is now in the queue of its channel. -/
theorem Answers.queue (h : s.Answers) {c₀ : Nat} {m : Message} {ops : List LoopOp}
    (ho : s.ops = .queue c₀ m :: ops)
    (hheap : ∀ c < s.fresh,
      ((s.put c₀ { s.heap c₀ with msg := (s.heap c₀).msg ++ [m] }).heap c).handled = (s.heap c).handled ∧
      ((s.put c₀ { s.heap c₀ with msg := (s.heap c₀).msg ++ [m] }).heap c).localId = (s.heap c).localId) :
    Answers { s.put c₀ { s.heap c₀ with msg := (s.heap c₀).msg ++ [m] } with ops } := by
  refine h.keep rfl hheap (fun c _ => ?_) (fun i c hi => ⟨hi, fun hrem => ?_⟩)
  · rw [ho]
    dsimp only
    rw [put_heap]
    by_cases heq : c = c₀
    · subst heq
      rw [Function.update_self]
      simp only [inHand, List.countP_cons, List.length_append, List.length_singleton, beq_self_eq_true,
        if_true]
      omega
    · rw [Function.update_of_ne heq]
      exact Nat.add_le_add_right (inHand_tail c _ ops) _
  · rw [ho, List.mem_cons] at hrem
    exact hrem.resolve_left (by simp)

/-- A channel still in the list is not the one that was removed. -/
theorem Answers.remove (h : s.Answers) (hi : s.Inv) {id : UInt32} {ops : List LoopOp}
    (ho : s.ops = .remove id :: ops) : Answers { s with ops, chanList := s.chanList.remove id } := by
  refine h.keep rfl (fun _ _ => ⟨rfl, rfl⟩) (fun c _ => ?_) (fun i c hl => ?_)
  · rw [ho]
    exact Nat.add_le_add_right (inHand_tail c _ ops) _
  · obtain ⟨hne, hslot⟩ := ChanList.slot_of_remove hi.short hl
    refine ⟨hslot, fun hrem => ?_⟩
    rw [ho, List.mem_cons] at hrem
    refine hrem.resolve_left fun heq => hne ?_
    cases heq
    have hlen := ChanList.lt_of_slot hslot
    have hshort := hi.short
    rw [UInt32.toNat_ofNat', Nat.mod_eq_of_lt (by omega)]

/-- Every step keeps count of the responses. -/
theorem Answers.step (h : s.Answers) (hi : s.Inv) {a : Act} {out : List Packet} (ht : Trans s a s' out) :
    s'.Answers := by
  have hheap : (∀ r, a ≠ .recv r) → ∀ c < s.fresh, (s'.heap c).handled = (s.heap c).handled ∧
      (s'.heap c).localId = (s.heap c).localId :=
    fun ha c hc => ⟨(hi.changes ht hc).handled fun m => ha (.ok m), (hi.changes ht hc).extends.localId⟩
  have hsame : ∀ c < s.fresh, (s.heap c).handled = (s.heap c).handled ∧
      (s.heap c).localId = (s.heap c).localId := fun _ _ => ⟨rfl, rfl⟩
  have hkeep : s'.fresh = s.fresh → s'.chanList = s.chanList → s'.ops = s.ops → (∀ r, a ≠ .recv r) →
      (∀ c < s.fresh, (s'.heap c).msg.length ≤ (s.heap c).msg.length) → s'.Answers := by
    intro hfresh hchan hops ha hmsg
    refine h.keep hfresh (hheap ha) (fun c hc => ?_) (fun i c hi => ⟨hchan ▸ hi, fun hrem => hops ▸ hrem⟩)
    rw [hops]
    exact Nat.add_le_add_left (hmsg c hc) _
  have hpop : ∀ {op ops}, s.ops = op :: ops → (∀ id, op ≠ .remove id) → s'.fresh = s.fresh →
      s'.chanList = s.chanList → s'.ops = ops → (∀ r, a ≠ .recv r) →
      (∀ c, (s'.heap c).msg = (s.heap c).msg) → s'.Answers :=
    fun ho hop hfresh hchan hops ha hmsg => h.pop ho hop hfresh hchan hops (hheap ha) hmsg
  have hempty : s.ops = [] → ∀ id, .remove id ∉ s.ops := fun ho id hmem => by
    rw [ho] at hmem
    cases hmem
  cases ht with
  | register hl =>
    exact h.added hi hl (fun id => ⟨rfl, rfl, rfl⟩) (fun _ => Nat.le_refl _) (fun _ hm => hm)
  | @call c₀ b r hc₀ hstep =>
    refine hkeep rfl rfl rfl (by simp) fun c _ => ?_
    by_cases heq : c = c₀
    · rw [heq, emit_fst, put_heap, Function.update_self]
      exact Channel.step_msg hstep
    · rw [emit_fst, put_heap, Function.update_of_ne heq]
  | @accept c₀ incoming hin =>
    have hmsg : ∀ c, (Function.update s.heap c₀ { s.heap c₀ with held := true } c).msg = (s.heap c).msg :=
      update_msg rfl
    exact hkeep rfl rfl rfl (by simp) fun c _ => Nat.le_of_eq (congrArg List.length (hmsg c))
  | acceptEOF hcl => exact hkeep rfl rfl rfl (by simp) fun _ _ => Nat.le_refl _
  | close => exact hkeep rfl rfl rfl (by simp) fun _ _ => Nat.le_refl _
  | outOfRange hr ho =>
    exact h.keep rfl hsame (fun _ _ => Nat.le_refl _) (fun _ _ hi => ⟨hi, id⟩)
  | undecoded hr ho he => exact h.exit (hempty ho) rfl rfl rfl hsame (fun _ => rfl)
  | unknown hr ho hm hg => exact h.exit (hempty ho) rfl rfl rfl hsame (fun _ => rfl)
  | refuse hr ho hm hg hh => exact h.exit (hempty ho) rfl rfl rfl hsame (fun _ => rfl)
  | handle hr ho hf hm hg hh => exact h.handle hi ho hf hg hh
  | rejectOpen hr ho hm =>
    refine h.keep rfl hsame (fun c _ => ?_) (fun _ _ hi => ⟨hi, fun hrem => absurd hrem (hempty ho _)⟩)
    rw [ho]
    exact Nat.le_refl _
  | handleOpen hr ho hm hl =>
    refine h.added hi hl (fun id => ⟨rfl, rfl, rfl⟩) (fun c => ?_) fun id hmem => absurd hmem (hempty ho id)
    rw [ho]
    exact Nat.le_refl _
  | publish ok ho hin => exact hpop ho (by simp) rfl rfl rfl (by simp) fun _ => rfl
  | confirm ho => exact hpop ho (by simp) rfl rfl rfl (by simp) (update_msg rfl)
  | confirmFailed ho =>
    have hnil := hi.alone ho fun _ h => h
    refine h.exit (fun id hmem => ?_) rfl rfl rfl (hheap (by simp)) (update_msg rfl)
    rw [ho, hnil] at hmem
    simp at hmem
  | reject ho => exact hpop ho (by simp) rfl rfl rfl (by simp) fun _ => rfl
  | rejectFailed ho =>
    have hnil := hi.alone ho fun _ h => h
    refine h.exit (fun id hmem => ?_) rfl rfl rfl hsame (fun _ => rfl)
    rw [ho, hnil] at hmem
    simp at hmem
  | queue ok ho hcl hq => exact h.queue ho (hheap (by simp))
  | queueClosed ok ho hcl => exact hpop ho (by simp) rfl rfl rfl (by simp) fun _ => rfl
  | @reply c₀ ops ok ho =>
    refine hpop ho (by simp) rfl rfl rfl (by simp) ?_
    refine update_msg ?_
    rw [Channel.Close, Channel.send]
    split <;> rfl
  | remove ok ho => exact h.remove hi ho
  | eof ok ho => exact hpop ho (by simp) rfl rfl rfl (by simp) (update_msg rfl)
  | closeMsg ok ho hcl => exact hpop ho (by simp) rfl rfl rfl (by simp) (update_msg rfl)
  | closeMsgTwice ok ho hcl => exact hpop ho (by simp) rfl rfl rfl (by simp) fun _ => rfl
  | markClosed ok ho => exact hpop ho (by simp) rfl rfl rfl (by simp) (update_msg rfl)
  | closeWin ok ho => exact hpop ho (by simp) rfl rfl rfl (by simp) (update_msg rfl)
  | @dropAll ops ok ho =>
    refine h.keep rfl (hheap (by simp)) (fun c _ => ?_) (fun i c hl => ?_)
    · dsimp only
      rw [inHand_dropAll, ho]
      exact Nat.add_le_add_right (inHand_tail c _ ops) _
    · simp [ChanList.slot] at hl
  | connClose ok ho => exact hpop ho (by simp) rfl rfl rfl (by simp) fun _ => rfl
  | signal ok ho => exact hpop ho (by simp) rfl rfl rfl (by simp) fun _ => rfl
  | setErr ok ho => exact hpop ho (by simp) rfl rfl rfl (by simp) fun _ => rfl

theorem answers {ok : Session → Act → Prop} (run : Run next ok newSession s) : s.Answers := by
  refine run.invariant (I := Answers) ⟨?_, ?_⟩ fun s a s' hr h _ hn => ?_
  · intro c hc
    cases hc
  · intro c hc
    cases hc
  · obtain ⟨out, ht⟩ := exists_trans hn
    exact h.step (Inv.of_run hr) ht

/-- What a message for a channel comes to: it is refused and the loop ends, or handled. -/
theorem Trans.addressed {m : Message} {out : List Packet} (ht : Trans s (.recv (.ok m)) s' out) {c : Nat}
    (hd : s.dest m = some c) :
    (∃ e, (s.heap c).handle c m = .error e ∧ s' = s.exit e) ∨
      ∃ ch ops, (s.heap c).handle c m = .ok (ch, ops) ∧
        s' = { s.put c { ch with handled := ch.handled ++ [m] } with ops } := by
  obtain ⟨hm, hg⟩ := dest_eq_some.mp hd
  cases ht with
  | unknown _ _ _ hg' =>
    rw [hg] at hg'
    cases hg'
  | @refuse _ c' e _ _ _ hg' hh =>
    obtain rfl := Option.some.inj (hg'.symm.trans hg)
    exact .inl ⟨e, hh, rfl⟩
  | @handle _ c' ch ops _ _ _ _ hg' hh =>
    obtain rfl := Option.some.inj (hg'.symm.trans hg)
    exact .inr ⟨ch, ops, hh, rfl⟩
  | rejectOpen => cases hm
  | handleOpen => cases hm

/-- The message is for a channel that has accepted an OpenConfirm. -/
def confirmedDest (s : Session) (m : Message) : Bool :=
  (s.dest m).any fun c => (s.heap c).handled.any Message.isConfirm

/-- Steps in which no OpenFailure, and no OpenConfirm with a MaxPacketSize in range, arrives for
a channel that was confirmed. -/
def AnsweredOnce (s : Session) : Act → Prop
  | .recv (.ok (.openConfirm m)) =>
    s.confirmedDest (.openConfirm m) = true →
      m.maxPacketSize < minPacketLength ∨ m.maxPacketSize > maxPacketLength
  | .recv (.ok (.openFailure m)) => s.confirmedDest (.openFailure m) = false
  | _ => True

/-- A response that a decided channel gets under the condition is refused. -/
theorem decided_refuses {ok : Session → Act → Prop} (run : Run next ok newSession s) {m : Message}
    {c : Nat} (hok : s.AnsweredOnce (.recv (.ok m))) (ho : s.ops = []) (hd : s.dest m = some c)
    (hm : m.isResponse = true) (hsome : (s.heap c).responses ≠ []) {r : Channel × List LoopOp} :
    (s.heap c).handle c m ≠ .ok r := by
  have hi := Inv.of_run run
  obtain ⟨-, hg⟩ := dest_eq_some.mp hd
  have hslot : ChanList.slot s.chanList m.channel.1.toNat = some c := by
    rw [← ChanList.getChan_eq hi.short]
    exact hg
  obtain ⟨hc, hid, -⟩ := hi.listed _ c hslot
  -- a channel whose open has failed is not in the list
  have hconfirmed : (s.heap c).handled.any Message.isConfirm = true := by
    obtain ⟨m', hm'⟩ := List.exists_mem_of_ne_nil _ hsome
    obtain ⟨hmem, hresp⟩ := List.mem_filter.mp hm'
    rw [Message.isResponse, Bool.or_eq_true] at hresp
    rcases hresp with hresp | hresp
    · exact List.any_eq_true.mpr ⟨m', hmem, hresp⟩
    · have hfailed := (answers run).failed c hc (List.any_eq_true.mpr ⟨m', hmem, hresp⟩)
        (by rw [hid]; exact hslot)
      rw [ho] at hfailed
      cases hfailed
  have hdest : s.confirmedDest m = true := by
    rw [confirmedDest, hd]
    exact hconfirmed
  intro hh
  cases m with
  | openConfirm m =>
    have hrange := hok hdest
    rw [Channel.handle, if_pos hrange] at hh
    split at hh
    · cases hh
    · cases hh
  | openFailure m =>
    have hnone : s.confirmedDest (.openFailure m) = false := hok
    rw [hdest] at hnone
    cases hnone
  | _ => cases hm

theorem decided (run : Run next AnsweredOnce newSession s) : ∀ c < s.fresh, (s.heap c).Decided := by
  refine channel_step_invariant (P := Channel.Decided) (fun _ => ⟨Nat.zero_le _, by simp [outboundChannel]⟩)
    (fun m id => ⟨?_, by simp [inboundChannel]⟩) ?_ run
  · exact Nat.zero_le _
  · intro s s' a out c who ms ch hr hc hok ht hby h hm hh
    by_cases hsecond : ∃ m, who = .recv m ∧ m.isResponse = true ∧ (s.heap c).responses ≠ []
    · obtain ⟨m, rfl, hresp, hsome⟩ := hsecond
      cases hby with
      | recv ho hch hg =>
        have hd : s.dest m = some c := dest_eq_some.mpr ⟨hch, hg⟩
        rcases ht.addressed hd with ⟨e, -, hs'⟩ | ⟨ch', ops, hok', -⟩
        · rw [← hh, hs']
          exact h
        · exact absurd hok' (decided_refuses hr hok ho hd hresp hsome)
    · refine h.move hm fun m hwho hresp => ?_
      by_contra hsome
      exact hsecond ⟨m, hwho, hresp, hsome⟩

/-- What it is for an outbound channel to be decided once, in one state of a run. -/
structure DecidedOnce (s : Session) (c : Nat) : Prop where
  /-- one open response at most is accepted -/
  once : (s.heap c).responses.length ≤ 1
  /-- the channel is what its confirmation made it -/
  fixed : ∀ m, .openConfirm m ∈ (s.heap c).handled →
    (s.heap c).remoteId = m.senderID ∧ (s.heap c).maxRemotePayload = m.maxPacketSize
  /-- a channel that `Open` has returned stays in the list until it is closed -/
  kept : (s.heap c).held = true → s.running = true →
    ChanList.slot s.chanList (s.heap c).localId.toNat = some c ∨
      (s.heap c).handled.any Message.isClose = true
  /-- the loop does not block on a full `msg` -/
  unblocked : ∀ m ops, s.ops = .queue c m :: ops → (s.heap c).msg.length < chanSize

/-- **An outbound channel is decided once.** In every run whose steps meet the condition: at
most one open response is accepted, a further one is refused and leaves the channels and the
channel list as they were, `remoteId` and `maxRemotePayload` stay what they are from the
moment that `Open` returns, and the loop never blocks on `msg`. -/
theorem decided_once (run : Run next AnsweredOnce newSession s) {c : Nat} (hc : c < s.fresh)
    (hd : (s.heap c).direction = .outbound) :
    s.DecidedOnce c ∧
    (∀ m s', s.AnsweredOnce (.recv (.ok m)) → s.next (.recv (.ok m)) = some s' → s.dest m = some c →
      m.isResponse = true → (s.heap c).responses ≠ [] →
      s'.heap = s.heap ∧ s'.chanList = s.chanList ∧ s'.running = false) ∧
    (∀ s', Run next AnsweredOnce s s' → (s.heap c).held = true →
      (s'.heap c).remoteId = (s.heap c).remoteId ∧
        (s'.heap c).maxRemotePayload = (s.heap c).maxRemotePayload) := by
  have hdecided := decided run c hc
  have hconfirmed : (s.heap c).held = true → (s.heap c).handled.any Message.isConfirm = true := by
    intro hheld
    by_contra hn
    obtain ⟨hidle, -⟩ := (openers run c hc hd).idle (Bool.eq_false_iff.mpr hn)
    rw [hheld] at hidle
    cases hidle
  refine ⟨⟨hdecided.once, hdecided.fixed, fun hheld hr => ?_, fun m ops ho => ?_⟩, ?_, ?_⟩
  · refine ((Inv.of_run run).unlisted hr c hc).imp_right fun hended => ?_
    rw [Channel.ended, Bool.or_eq_true] at hended
    refine hended.resolve_right fun hf => ?_
    rw [hdecided.not_failed (hconfirmed hheld)] at hf
    cases hf
  · have hqueued := (answers run).queued c hc
    have honce := hdecided.once
    have hone : 1 ≤ inHand c s.ops := by
      rw [ho, inHand, List.countP_cons]
      simp
    have hsize : chanSize = 16 := rfl
    omega
  · intro m s' hok hn hdest hm hsome
    obtain ⟨out, ht⟩ := exists_trans hn
    have ho : s.ops = [] := by
      cases ht with
      | unknown _ ho => exact ho
      | refuse _ ho => exact ho
      | handle _ ho => exact ho
      | rejectOpen => cases hm
      | handleOpen => cases hm
    rcases ht.addressed hdest with ⟨e, -, rfl⟩ | ⟨ch, ops, hh, -⟩
    · exact ⟨rfl, rfl, rfl⟩
    · exact absurd hh (decided_refuses run hok ho hdest hm hsome)
  · intro s' more hheld
    obtain ⟨m, hm, hconfirm⟩ := List.any_eq_true.mp (hconfirmed hheld)
    have hfurther : c < s'.fresh ∧ m ∈ (s'.heap c).handled := by
      refine Run.invariant (I := fun s' => c < s'.fresh ∧ m ∈ (s'.heap c).handled) ⟨hc, hm⟩ ?_ more
      rintro s1 a s2 hr ⟨hc, hm⟩ - hn
      obtain ⟨out, ht⟩ := exists_trans hn
      refine ⟨?_, ((Inv.of_run (run.trans hr)).changes ht hc).extends.handled.subset hm⟩
      rcases ht.fresh with heq | ⟨heq, -⟩
      · exact heq ▸ hc
      · rw [heq]
        exact Nat.lt_succ_of_lt hc
    have hlater := decided (run.trans more) c hfurther.1
    cases m with
    | openConfirm m =>
      obtain ⟨h1, h2⟩ := hdecided.fixed m hm
      obtain ⟨h1', h2'⟩ := hlater.fixed m hfurther.2
      exact ⟨h1'.trans h1.symm, h2'.trans h2.symm⟩
    | _ => cases hconfirm

instance (s : Session) : (a : Act) → Decidable (AnsweredOnce s a)
  | .recv (.ok (.openConfirm m)) =>
    inferInstanceAs (Decidable (s.confirmedDest (.openConfirm m) = true →
      m.maxPacketSize < minPacketLength ∨ m.maxPacketSize > maxPacketLength))
  | .recv (.ok (.openFailure m)) =>
    inferInstanceAs (Decidable (s.confirmedDest (.openFailure m) = false))
  | .recv (.ok (.openMsg _)) => .isTrue trivial
  | .recv (.ok (.windowAdjust _)) => .isTrue trivial
  | .recv (.ok (.data _)) => .isTrue trivial
  | .recv (.ok (.eof _)) => .isTrue trivial
  | .recv (.ok (.close _)) => .isTrue trivial
  | .recv (.error _) => .isTrue trivial
  | .register => .isTrue trivial
  | .call _ _ => .isTrue trivial
  | .accept => .isTrue trivial
  | .acceptEOF => .isTrue trivial
  | .close => .isTrue trivial
  | .loop _ => .isTrue trivial

/-- `Open` has returned a channel; then a confirmation with a bad size arrives for it. -/
theorem decided_once_run :
    ∃ s s', Run next AnsweredOnce newSession s ∧ (s.heap 0).held = true ∧
      s.next (.recv (.ok (.openConfirm ⟨0, 9, 100, 3⟩))) = some s' ∧ s.DecidedOnce 0 ∧
      s'.heap = s.heap ∧ s'.running = false ∧ (s'.heap 0).remoteId = 5 := by
  obtain ⟨s, run, hs⟩ := Run.of_exec next AnsweredOnce newSession
    [.register, .call 0 (.sendOpen true), .recv (.ok (.openConfirm ⟨0, 5, 100, 32768⟩)), .loop true,
     .call 0 .opened]
    (fun s => decide (0 < s.fresh ∧ (s.heap 0).direction = .outbound ∧ (s.heap 0).held = true ∧
      (s.heap 0).responses ≠ [] ∧ s.dest (.openConfirm ⟨0, 9, 100, 3⟩) = some 0 ∧
      s.AnsweredOnce (.recv (.ok (.openConfirm ⟨0, 9, 100, 3⟩))) ∧
      (s.next (.recv (.ok (.openConfirm ⟨0, 9, 100, 3⟩)))).isSome = true ∧
      (s.heap 0).remoteId = 5)) (by decide +kernel)
  simp only [decide_eq_true_eq] at hs
  obtain ⟨hc, hd, hheld, hsome, hdest, hok, hnext, hid⟩ := hs
  obtain ⟨s', hs'⟩ := Option.isSome_iff_exists.mp hnext
  obtain ⟨hdecided, hrefused, hconstant⟩ := decided_once run hc hd
  obtain ⟨hheap, -, hr⟩ := hrefused _ s' hok hs' hdest rfl hsome
  have hsame := (hconstant s' (.step _ .start hok hs') hheld).1
  exact ⟨s, s', run, hheld, hs', hdecided, hheap, hr, hsame.trans hid⟩

/-- A second OpenConfirm: the channel that `Open` has returned is redirected from 5 to 9. -/
theorem second_confirm_redirects :
    ¬ ∀ s s' c, Run next anyStep newSession s → Run next anyStep s s' → c < s.fresh →
      (s.heap c).direction = .outbound → (s.heap c).held = true →
      (s'.heap c).remoteId = (s.heap c).remoteId := by
  intro h
  obtain ⟨s, run, hs⟩ := Run.of_exec next anyStep newSession
    [.register, .call 0 (.sendOpen true), .recv (.ok (.openConfirm ⟨0, 5, 100, 32768⟩)), .loop true,
     .call 0 .opened]
    (fun s => decide (0 < s.fresh ∧ (s.heap 0).direction = .outbound ∧ (s.heap 0).held = true ∧
      (s.heap 0).remoteId = 5 ∧
      (s.next (.recv (.ok (.openConfirm ⟨0, 9, 100, 32768⟩)))).any
        (fun s' => decide ((s'.heap 0).remoteId = 9)) = true)) (by decide +kernel)
  simp only [decide_eq_true_eq] at hs
  obtain ⟨hc, hd, hheld, hid, hnext⟩ := hs
  cases hs' : s.next (.recv (.ok (.openConfirm ⟨0, 9, 100, 32768⟩))) with
  | none =>
    rw [hs'] at hnext
    cases hnext
  | some s' =>
    rw [hs'] at hnext
    have hid' : (s'.heap 0).remoteId = 9 := of_decide_eq_true hnext
    have hsame := h s s' 0 run (.step _ .start trivial hs') hc hd hheld
    rw [hid, hid'] at hsame
    cases hsame

end Session

end Qtalk.Mux
