import Qtalk.Mux.Shutdown

/-!
# The handshake of a channel

What one session knows of the messages that open and close a channel: each is sent once,
the confirmation comes before the `CloseMessage`, and a channel that has handled a
`CloseMessage` leaves the list. Also, how a channel that the loop has accepted gets to
`Accept`.
-/

namespace Qtalk.Codec.Message

/-- The messages that open, confirm, refuse and close a channel. -/
def isHandshake : Message → Bool
  | .data _ | .windowAdjust _ | .eof _ => false
  | _ => true

end Qtalk.Codec.Message

namespace Qtalk.Mux
open Qtalk.Codec Qtalk.Lib

/-- The messages of a list that open or close a channel. -/
def handshake (l : List Message) : List Message := l.filter Message.isHandshake

@[simp] theorem handshake_nil : handshake [] = [] := rfl

@[simp] theorem handshake_append (l l' : List Message) :
    handshake (l ++ l') = handshake l ++ handshake l' := by
  simp [handshake]

theorem handshake_cons {m : Message} (hm : m.isHandshake = true) (l : List Message) :
    handshake (m :: l) = m :: handshake l := by
  simp [handshake, hm]

theorem mem_handshake {m : Message} {l : List Message} :
    m ∈ handshake l ↔ m ∈ l ∧ m.isHandshake = true := by
  simp [handshake]

/-- A kind of handshake messages is found in a list exactly if it is found in what is left
of it. -/
theorem any_handshake {p : Message → Bool} (hp : ∀ m, p m = true → m.isHandshake = true)
    (l : List Message) : (handshake l).any p = l.any p := by
  induction l with
  | nil => rfl
  | cons m l ih =>
    cases hm : m.isHandshake with
    | true => rw [handshake_cons hm, List.any_cons, List.any_cons, ih]
    | false =>
      have : p m = false := by
        cases h : p m with
        | false => rfl
        | true => rw [hp m h] at hm; cases hm
      simp [handshake, hm, this, ← ih]

theorem count_handshake {p : Message → Bool} (hp : ∀ m, p m = true → m.isHandshake = true)
    (l : List Message) : (handshake l).countP p = l.countP p := by
  rw [handshake, List.countP_filter]
  apply List.countP_congr
  intro m _
  rw [Bool.and_eq_true]
  constructor
  · intro h
    exact h.1
  · intro h
    exact ⟨h, hp m h⟩

theorem isClose_handshake (m : Message) (h : m.isClose = true) : m.isHandshake = true := by
  cases m with
  | close m => rfl
  | _ => cases h

theorem isConfirm_handshake (m : Message) (h : m.isConfirm = true) : m.isHandshake = true := by
  cases m with
  | openConfirm m => rfl
  | _ => cases h

namespace Channel

theorem Heralded.of_handshake {l : List Message} (h : Heralded (handshake l)) : Heralded l := by
  rintro l' m ⟨t, rfl⟩ hm
  rw [← any_handshake isConfirm_handshake]
  apply h (handshake l') m _ hm
  refine ⟨handshake t, ?_⟩
  simp [handshake, isClose_handshake m hm]

/-- Who says the confirmation first says nothing of the handshake before it. -/
theorem ConfirmsFirst.head {ch : Channel} (h : ch.ConfirmsFirst) {m : Message}
    (hm : m ∈ (handshake ch.sent).head?) : m.isConfirm = true := by
  cases hs : ch.sent with
  | nil => rw [hs] at hm; cases hm
  | cons m₀ l =>
    have hconf := h.first m₀ (by rw [hs]; rfl)
    rw [hs, handshake_cons (isConfirm_handshake m₀ hconf)] at hm
    cases hm
    exact hconf

/-- `Open` and `Accept` return a channel for good, and no other call does. -/
theorem Move.held {ch ch' : Channel} {who : Actor} {ms : List Message} (h : Move ch who ms ch') :
    (ch.held = true → ch'.held = true) ∧
      (ch'.held = true → ch.held = true ∨ who = .accept ∨ ch.opening = .waiting) := by
  cases h with
  | opened m msg ho hm => exact ⟨fun _ => rfl, fun _ => .inr (.inr ho)⟩
  | hold hd => exact ⟨fun _ => rfl, fun _ => .inr (.inl rfl)⟩
  | _ => exact ⟨id, .inl⟩

/-- No channel is registered again. -/
theorem Move.registered {ch ch' : Channel} {who : Actor} {ms : List Message} (h : Move ch who ms ch')
    (ho : ch'.opening = .registered) : ch.opening = .registered := by
  cases h with
  | sendOpen ok hr => exact hr
  | opened m msg hw hm => cases ho
  | openFailed msg hw hm => cases ho
  | _ => exact ho

end Channel

namespace Session

variable {s s' : Session} {a : Act} {out : List Packet} {c : Nat}

/-- No channel sends two confirmations. -/
theorem confirmsOnce {ok : Session → Act → Prop} (run : Run next ok newSession s) :
    ∀ c < s.fresh, (s.heap c).sent.countP Message.isConfirm ≤ 1 := by
  refine channel_invariant (P := fun ch => ch.sent.countP Message.isConfirm ≤ 1) (fun _ => ?_)
    (fun _ _ => ?_) (fun s a c who ms ch hr hc _ _ h hm => ?_) run
  · exact Nat.zero_le 1
  · exact Nat.zero_le 1
  · have hsent := hm.sent_eq
    rw [Channel.sends, List.countP_append, hsent]
    cases hm with
    | confirm c' hd hn =>
      have hzero : (s.heap c).sent.countP Message.isConfirm = 0 := by
        rw [List.countP_eq_zero]
        exact any_false hn
      rw [hzero]
      exact Nat.le_refl 1
    | _ => exact h

/-- An `Open` that has got beyond the registration has encoded its `OpenMessage`. -/
theorem opensFirst {ok : Session → Act → Prop} (run : Run next ok newSession s) :
    ∀ c < s.fresh, (s.heap c).direction = .outbound → (s.heap c).opening ≠ .registered →
      (s.heap c).sent.any Message.isOpen = true := by
  refine channel_invariant (P := fun ch => ch.direction = .outbound → ch.opening ≠ .registered →
    ch.sent.any Message.isOpen = true) (fun _ _ h => absurd rfl h) (fun _ _ h => by cases h)
    (fun s a c who ms ch hr hc _ _ h hm hd ho => ?_) run
  have hext := hm.extends
  rw [hext.direction] at hd
  have hold : (s.heap c).opening ≠ .registered → (ch.sends ms).sent.any Message.isOpen = true :=
    fun ho => hext.any_sent (h hd ho)
  cases hm with
  | sendOpen ok ho => simp [Channel.sends, Message.isOpen]
  | opened m msg hw | openFailed msg hw =>
    apply hold
    rw [hw]
    simp
  | _ => exact hold ho

/-- A message is handed to the channel it is addressed to, if the loop goes on. -/
theorem Trans.hears {m : Message} (ht : Trans s (.recv (.ok m)) s' out) (hr : s'.running = true)
    (hc : c < s.fresh) :
    (s'.heap c).handled = (s.heap c).handled ++ if s.dest m = some c then [m] else [] := by
  split
  · next hd =>
    obtain ⟨hm, hg⟩ := dest_eq_some.mp hd
    cases ht with
    | unknown => cases hr
    | refuse => cases hr
    | @handle _ c' ch ops hr' ho hf hm' hg' hh =>
      obtain rfl := Option.some.inj (hg'.symm.trans hg)
      obtain ⟨-, -, hch, -⟩ := Channel.handle_ops hh
      simp [hch]
    | rejectOpen => cases hm
    | handleOpen => cases hm
  · next hd => rw [ht.not_handled hc hd, List.append_nil]

/-- A channel that has handled a `CloseMessage` has left the list when the loop gets to
`close(c.msg)`. -/
theorem Life.unlisted (h : s.Life c) (hi : s.Inv) (hc : (s.heap c).handled.any Message.isClose = true)
    (hn : .closeMsg c ∉ s.ops) : ¬ s.Listed c := by
  intro hl
  have hopen := (hi.listed _ c hl).2.2
  have hclosed := (h.closing hc).msg.resolve_left hn
  rw [hopen] at hclosed
  cases hclosed

theorem Inv.listed_of_mem (h : s.Inv) (hin : some c ∈ s.chanList) : s.Listed c := by
  obtain ⟨i, hi⟩ := List.getElem?_of_mem hin
  have hslot : ChanList.slot s.chanList i = some c := by
    rw [ChanList.slot, hi]
    rfl
  rw [Listed, (h.listed i c hslot).2.1]
  exact hslot

/-- The loop cannot go on by itself: it waits for a packet, or for room in a queue. -/
def Waits (s : Session) : Prop := ∀ ok, s.loopStep ok = none

/-- Then it has no end of a channel in hand. -/
theorem Inv.waits (h : s.Inv) (hw : s.Waits) (c : Nat) :
    .reply c ∉ s.ops ∧ .closeMsg c ∉ s.ops ∧
      (.publish c ∈ s.ops → chanSize ≤ s.incoming.length) := by
  have hstep := hw true
  have hord := h.order
  unfold loopStep at hstep
  split at hstep
  · next ho => simp [ho]
  · next op ops ho =>
    rw [ho, List.pairwise_cons] at hord
    have hfirst := hord.1
    rw [ho]
    cases op with
    | publish c' =>
      have hfull : chanSize ≤ s.incoming.length := by
        by_contra hlt
        simp [runOp, Nat.lt_of_not_le hlt] at hstep
      have hconf : ∀ op ∈ ops, op = .confirm c' := fun op hop => hfirst op hop
      refine ⟨?_, ?_, fun _ => hfull⟩
      · intro hin
        rcases List.mem_cons.mp hin with hin | hin
        · cases hin
        · cases hconf _ hin
      · intro hin
        rcases List.mem_cons.mp hin with hin | hin
        · cases hin
        · cases hconf _ hin
    | queue c' m =>
      have hnone : ops = [] := List.eq_nil_iff_forall_not_mem.mpr fun op hop => hfirst op hop
      rw [hnone]
      simp
    | closeMsg c' =>
      simp only [runOp] at hstep
      split at hstep
      · cases hstep
      · cases hstep
    | _ => simp [runOp] at hstep

theorem Changes.held (h : Changes s s' a out c) :
    ((s.heap c).held = true → (s'.heap c).held = true) ∧
      ((s'.heap c).held = true → (s.heap c).held = true ∨ a = .accept ∨ (s.heap c).opening = .waiting) := by
  cases h with
  | none hh _ => exact ⟨fun h => by rwa [hh], fun h => .inl (by rwa [hh] at h)⟩
  | @move who ms ch hby hm hh _ =>
    rw [hh]
    refine ⟨hm.held.1, fun h => (hm.held.2 h).imp_right (Or.imp_left fun hwho => ?_)⟩
    subst hwho
    cases hby
    rfl

theorem Changes.registered (h : Changes s s' a out c) (ho : (s'.heap c).opening = .registered) :
    (s.heap c).opening = .registered := by
  cases h with
  | none hh _ => rwa [hh] at ho
  | move hby hm hh _ =>
    rw [hh] at ho
    exact hm.registered ho

/-- A channel that the loop has registered is on its way to `Accept`, or has been returned
by it. -/
def Offered (s : Session) (c : Nat) : Prop :=
  .publish c ∈ s.ops ∨ c ∈ s.incoming ∨ (s.heap c).held = true

theorem Offered.step (h : s.Offered c) (hi : s.Inv) (hc : c < s.fresh) (ht : Trans s a s' out) :
    s'.Offered c := by
  have hheld := (hi.changes ht hc).held.1
  have keep : (.publish c ∈ s.ops → .publish c ∈ s'.ops ∨ c ∈ s'.incoming) →
      (c ∈ s.incoming → c ∈ s'.incoming ∨ (s'.heap c).held = true) → s'.Offered c := by
    intro hops hin
    rcases h with h | h | h
    · exact (hops h).elim Or.inl fun h => Or.inr (Or.inl h)
    · exact Or.inr (hin h)
    · exact Or.inr (Or.inr (hheld h))
  -- the answer that ends the loop is the last thing in hand
  have last : ∀ op ops, s.ops = op :: ops → op ≠ .publish c → (∀ op', ¬ Before op op') →
      .publish c ∉ s.ops := by
    intro op ops ho hne hb hin
    rw [ho, hi.alone ho hb, List.mem_singleton] at hin
    exact hne hin.symm
  cases ht with
  | @accept c' incoming hin =>
    refine keep Or.inl fun h => ?_
    rw [hin] at h
    rcases List.mem_cons.mp h with rfl | h
    · right
      simp
    · exact Or.inl h
  | undecoded _ ho | unknown _ ho | refuse _ ho | handle _ ho | rejectOpen _ ho | handleOpen _ ho =>
    refine keep (fun h => ?_) Or.inl
    rw [ho] at h
    cases h
  | confirmFailed ho | rejectFailed ho =>
    refine keep (fun h => ?_) Or.inl
    exact absurd h (last _ _ ho (by simp) fun _ hb => hb)
  | publish ok ho hl =>
    refine keep (fun h => ?_) fun h => Or.inl (List.mem_append_left _ h)
    rw [ho] at h
    rcases List.mem_cons.mp h with h | h
    · cases h
      right
      simp
    · exact Or.inl h
  | dropAll ok ho =>
    refine keep (fun h => ?_) Or.inl
    rw [ho] at h
    refine Or.inl (List.mem_append_right _ ?_)
    exact (List.mem_cons.mp h).resolve_left (by simp)
  | confirm ho | reject ho | queue ok ho | queueClosed ok ho | reply ok ho | remove ok ho | eof ok ho
  | closeMsg ok ho | closeMsgTwice ok ho | markClosed ok ho | closeWin ok ho | connClose ok ho
  | signal ok ho | setErr ok ho =>
    refine keep (fun h => ?_) Or.inl
    rw [ho] at h
    exact Or.inl ((List.mem_cons.mp h).resolve_left (by simp))
  | _ => exact keep Or.inl Or.inl

theorem offered {ok : Session → Act → Prop} (run : Run next ok newSession s) :
    ∀ c < s.fresh, (s.heap c).direction = .inbound → s.Offered c := by
  refine Run.invariant (I := fun s => ∀ c < s.fresh, (s.heap c).direction = .inbound → s.Offered c)
    (fun c hc => absurd hc (Nat.not_lt_zero c)) (fun s a s' hr h _ hn c hc hd => ?_) run
  have hi := Inv.of_run hr
  obtain ⟨out, ht⟩ := exists_trans hn
  by_cases hlt : c < s.fresh
  · rw [(hi.changes ht hlt).extends.direction] at hd
    exact (h c hlt hd).step hi hlt ht
  · left
    cases ht with
    | register =>
      obtain rfl : c = s.fresh := Nat.le_antisymm (Nat.lt_succ_iff.mp hc) (Nat.le_of_not_lt hlt)
      rw [added_new] at hd
      cases hd
    | handleOpen =>
      obtain rfl : c = s.fresh := Nat.le_antisymm (Nat.lt_succ_iff.mp hc) (Nat.le_of_not_lt hlt)
      exact List.mem_cons_self
    | _ => exact absurd hc hlt

end Session

end Qtalk.Mux
