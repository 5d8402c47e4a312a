import Qtalk.Mux.Accounts
import Qtalk.Mux.Silence

/-!
# The two ends of an open

What a channel knows and has said at its two ends. An accepted channel (`Acceptor`) began
with the `OpenMessage`, speaks to the id in it and offers its window with the
`OpenConfirmMessage`. A channel that `Open` created (`Opener`) offers its window with the
`OpenMessage`, and its users stay idle until it has handled the confirmation. `confirmed_first`:
an accepted channel that is used only after its confirmation says the confirmation first.
-/

namespace Qtalk.Mux
open Qtalk.Codec Qtalk.Lib

/-- The initial window, where a list of messages offers it. -/
def offerOf (l : List Message) : Nat :=
  if l.any Message.isOpen || l.any Message.isConfirm then channelWindowSize.toNat else 0

theorem offerOf_le (l : List Message) : offerOf l ≤ channelWindowSize.toNat := by
  rw [offerOf]
  split
  · exact Nat.le_refl _
  · exact Nat.zero_le _

theorem offerOf_snoc {l : List Message} {m : Message} (ho : m.isOpen = false)
    (hc : m.isConfirm = false) : offerOf (l ++ [m]) = offerOf l := by
  simp [offerOf, ho, hc]

namespace Channel

/-- While no data is handled nothing is read and the window is whole. -/
theorem Accounts.untouched {ch : Channel} (ha : ch.Accounts) (hd : dataOf ch.handled = []) :
    ch.pending.content = [] ∧ ch.myWindow = channelWindowSize := by
  have hdata := ha.streamed
  rw [Streamed, hd] at hdata
  obtain ⟨hgot, hcont⟩ := List.append_eq_nil_iff.mp hdata.symm
  have hle := ha.returned.le
  have hacc := ha.accounted
  have hsplit := ReadCall.total_amount ch.reads
  rw [hgot, List.length_nil] at hle
  rw [Accounted, hcont, List.length_nil] at hacc
  refine ⟨hcont, UInt32.toNat_inj.mp ?_⟩
  omega

/-! ## The accepting end -/

structure Acceptor (ch : Channel) : Prop where
  opened : ∃ m rest, ch.handled = .openMsg m :: rest ∧ ch.remoteId = m.senderID ∧
    ∀ m' ∈ rest, m'.isOpen = false ∧ m'.isConfirm = false ∧ m'.isFailure = false
  ready : ch.opening = .returned
  payload : ch.maxIncomingPayload = channelMaxPacket
  addressed : ∀ m ∈ ch.sent, m.channel = (ch.remoteId, true)
  confirm : ∀ m, .openConfirm m ∈ ch.sent →
    m = ⟨ch.remoteId, ch.localId, channelWindowSize, channelMaxPacket⟩
  /-- the loop handles nothing more before the confirmation is sent -/
  early : ch.sent.any Message.isConfirm = false → ch.handled.length = 1
  grants : creditOf ch.sent = adjustOf ch.sent + offerOf ch.sent

theorem Acceptor.not_isOpen {ch : Channel} (h : ch.Acceptor) : ch.sent.any Message.isOpen = false := by
  rw [List.any_eq_false]
  intro m hm ho
  have := h.addressed m hm
  cases m <;> simp [Message.isOpen, Message.channel] at ho this

/-- Nor is there data before the confirmation. -/
theorem Acceptor.untouched {ch : Channel} (h : ch.Acceptor) (ha : ch.Accounts)
    (hn : ch.sent.any Message.isConfirm = false) :
    ch.pending.content = [] ∧ ch.myWindow = channelWindowSize := by
  obtain ⟨m, rest, hh, -, -⟩ := h.opened
  have hlen := h.early hn
  rw [hh, List.length_cons, Nat.add_eq_right, List.length_eq_zero_iff] at hlen
  exact ha.untouched (by rw [hh, hlen]; rfl)

theorem Acceptor.quiet {ch ch' : Channel} (h : ch.Acceptor) (hh : ch'.handled = ch.handled)
    (hr : ch'.remoteId = ch.remoteId) (hl : ch'.localId = ch.localId)
    (ho : ch'.opening = ch.opening) (hp : ch'.maxIncomingPayload = ch.maxIncomingPayload)
    (hs : ch'.sent = ch.sent) : (ch'.sends []).Acceptor := by
  rw [sends_nil]
  exact ⟨hh ▸ hr ▸ h.opened, ho.trans h.ready, hp.trans h.payload, hs ▸ hr ▸ h.addressed,
    hs ▸ hr ▸ hl ▸ h.confirm, hs ▸ hh ▸ h.early, hs ▸ h.grants⟩

/-- A change that sends a message of the channel other than the confirmation. -/
theorem Acceptor.sendsOne {ch ch' : Channel} {m : Message} (h : ch.Acceptor)
    (hh : ch'.handled = ch.handled) (hr : ch'.remoteId = ch.remoteId)
    (hl : ch'.localId = ch.localId) (ho : ch'.opening = ch.opening)
    (hp : ch'.maxIncomingPayload = ch.maxIncomingPayload) (hs : ch'.sent = ch.sent)
    (hm : m.channel = (ch.remoteId, true)) (hc : m.isConfirm = false)
    (hcredit : m.allowance = m.adjustment) : (ch'.sends [m]).Acceptor := by
  have hopen : m.isOpen = false := by
    cases m <;> simp [Message.isOpen, Message.channel] at hm ⊢
  refine ⟨hh ▸ hr ▸ h.opened, ho.trans h.ready, hp.trans h.payload, ?_, ?_, ?_, ?_⟩
  · intro m' hm'
    simp only [sends, hs, hr] at hm' ⊢
    rcases List.mem_append.mp hm' with hm' | hm'
    · exact h.addressed m' hm'
    · rw [List.mem_singleton.mp hm', hm]
  · intro m' hm'
    simp only [sends, hs, hr, hl] at hm' ⊢
    rcases List.mem_append.mp hm' with hm' | hm'
    · exact h.confirm m' hm'
    · rw [← List.mem_singleton.mp hm'] at hc
      cases hc
  · intro hn
    simp only [sends, hs, hh, List.any_append, Bool.or_eq_false_iff] at hn ⊢
    exact h.early hn.1
  · simp only [sends, hs, creditOf_append, adjustOf_append, creditOf_cons, creditOf_nil,
      adjustOf_cons, adjustOf_nil, offerOf_snoc hopen hc, h.grants, hcredit]
    omega

theorem Acceptor.handles {ch ch' : Channel} {m : Message} (h : ch.Acceptor)
    (hh : ch'.handled = ch.handled ++ [m]) (hr : ch'.remoteId = ch.remoteId)
    (hl : ch'.localId = ch.localId) (ho : ch'.opening = ch.opening)
    (hp : ch'.maxIncomingPayload = ch.maxIncomingPayload) (hs : ch'.sent = ch.sent)
    (hm : m.isOpen = false ∧ m.isConfirm = false ∧ m.isFailure = false)
    (hc : ch.sent.any Message.isConfirm = true) : (ch'.sends []).Acceptor := by
  rw [sends_nil]
  refine ⟨?_, ho.trans h.ready, hp.trans h.payload, hs ▸ hr ▸ h.addressed,
    hs ▸ hr ▸ hl ▸ h.confirm, ?_, hs ▸ h.grants⟩
  · obtain ⟨m0, rest, he, hid, hrest⟩ := h.opened
    refine ⟨m0, rest ++ [m], by rw [hh, he, List.cons_append], hr.trans hid, fun m' hm' => ?_⟩
    rcases List.mem_append.mp hm' with hm' | hm'
    · exact hrest m' hm'
    · rw [List.mem_singleton.mp hm']; exact hm
  · rw [hs, hc]
    nofun

theorem Acceptor.move {ch ch' : Channel} {who : Actor} {ms : List Message} (h : ch.Acceptor)
    (hd : ch.direction = .inbound) (ha : ch.Accounts)
    (hrecv : ∀ m, who = .recv m → ch.sent.any Message.isConfirm = true)
    (hm : Move ch who ms ch') : (ch'.sends ms).Acceptor := by
  cases hm with
  | sendOpen ok ho => rw [h.ready] at ho; cases ho
  | opened m msg ho hq => rw [h.ready] at ho; cases ho
  | openFailed msg ho hq => rw [h.ready] at ho; cases ho
  | confirm c hd hn =>
    obtain ⟨-, hwin⟩ := h.untouched ha hn
    refine ⟨h.opened, h.ready, h.payload, ?_, ?_, ?_, ?_⟩
    · intro m hm
      rcases List.mem_append.mp hm with hm | hm
      · exact h.addressed m hm
      · rw [List.mem_singleton.mp hm]; rfl
    · intro m hm
      rcases List.mem_append.mp hm with hm | hm
      · exact h.confirm m hm
      · have := Message.openConfirm.inj (List.mem_singleton.mp hm)
        rw [this, hwin, h.payload]
        rfl
    · simp [sends, confirmMessage, Message.isConfirm]
    · have hopen := h.not_isOpen
      have hgr := h.grants
      simp only [offerOf, hopen, hn] at hgr
      simp [sends, confirmMessage, offerOf, Message.isConfirm, Message.allowance,
        Message.adjustment, hgr, hwin]
  | sendData | sendFailed | sendEOF | close | adjust | reply =>
    exact h.sendsOne rfl rfl rfl rfl rfl rfl rfl rfl rfl
  | gotConfirm hd' | gotConfirmOver hd' | gotFailure _ hd' => rw [hd] at hd'; cases hd'
  | gotData | gotEOF | gotClose | gotAdjust =>
    exact h.handles rfl rfl rfl rfl rfl rfl ⟨rfl, rfl, rfl⟩ (hrecv _ rfl)
  | _ => exact h.quiet rfl rfl rfl rfl rfl rfl

/-! ## The opening end -/

/-- No `CloseMessage` comes before the confirmation. -/
def Heralded (l : List Message) : Prop :=
  ∀ l' m, l' ++ [m] <+: l → m.isClose = true → l'.any Message.isConfirm = true

theorem Heralded.mono {l l' : List Message} (h : Heralded l) (hp : l' <+: l) : Heralded l' :=
  fun l'' m hm => h l'' m (hm.trans hp)

theorem Heralded.any {l : List Message} (h : Heralded l) (hc : l.any Message.isClose = true) :
    l.any Message.isConfirm = true := by
  obtain ⟨m, hm, hcl⟩ := List.any_eq_true.mp hc
  obtain ⟨l', l'', rfl⟩ := List.append_of_mem hm
  have := h l' m ⟨l'', by simp⟩ hcl
  rw [List.any_append, this, Bool.true_or]

/-- The channel handles confirmations for one remote id only. -/
def ConfirmedAs (ch : Channel) (r : UInt32) : Prop :=
  ∀ m, .openConfirm m ∈ ch.handled → m.senderID = r

structure Opener (ch : Channel) : Prop where
  noConfirm : ch.sent.any Message.isConfirm = false
  opens : ∀ m, .openMsg m ∈ ch.sent → m = ⟨ch.localId, channelWindowSize, channelMaxPacket⟩
  once : ch.sent.countP Message.isOpen ≤ 1
  /-- before the `OpenMessage` -/
  registered : ch.opening = .registered → ch.sent.any Message.isOpen = false ∧
    ch.maxIncomingPayload = 0 ∧ dataOf ch.handled = []
  payload : ch.opening ≠ .registered → ch.maxIncomingPayload = channelMaxPacket
  queued : ∀ m ∈ ch.msg, m ∈ ch.handled
  /-- before the confirmation -/
  idle : ch.handled.any Message.isConfirm = false →
    ch.held = false ∧ ch.writes = [] ∧ ch.reads = [] ∧ ch.closeWrites = 0
  remote : ∀ r, ch.ConfirmedAs r → ch.handled.any Message.isConfirm = true → ch.remoteId = r
  /-- the channel speaks when it was confirmed, or closed -/
  speaks : ∀ m ∈ ch.sent, m.isOpen = true ∨ ch.handled.any Message.isConfirm = true ∨
    ch.handled.any Message.isClose = true
  addressed : ∀ r, ch.ConfirmedAs r → Heralded ch.handled →
    ∀ m ∈ ch.sent, m.isOpen = true ∨ m.channel = (r, true)
  grants : creditOf ch.sent = adjustOf ch.sent + offerOf ch.sent

theorem Opener.quiet {ch ch' : Channel} (h : ch.Opener) (hh : ch'.handled = ch.handled)
    (hr : ch'.remoteId = ch.remoteId) (hl : ch'.localId = ch.localId)
    (hp : ch'.maxIncomingPayload = ch.maxIncomingPayload) (hs : ch'.sent = ch.sent)
    (ho : (ch'.opening = .registered ↔ ch.opening = .registered))
    (hq : ∀ m ∈ ch'.msg, m ∈ ch.handled)
    (hidle : ch.handled.any Message.isConfirm = false →
      ch'.held = ch.held ∧ (ch.writes = [] → ch'.writes = []) ∧ (ch.reads = [] → ch'.reads = []) ∧
        (ch.closeWrites = 0 → ch'.closeWrites = 0)) : (ch'.sends []).Opener := by
  rw [sends_nil]
  refine ⟨hs ▸ h.noConfirm, hs ▸ hl ▸ h.opens, hs ▸ h.once, ?_, ?_, hh ▸ hq, ?_, ?_, ?_, ?_,
    hs ▸ h.grants⟩
  · intro hreg
    rw [hs, hp, hh]
    exact h.registered (ho.mp hreg)
  · intro hreg
    rw [hp]
    exact h.payload fun h' => hreg (ho.mpr h')
  · intro hn
    rw [hh] at hn
    obtain ⟨h1, h2, h3, h4⟩ := h.idle hn
    obtain ⟨k1, k2, k3, k4⟩ := hidle hn
    exact ⟨k1.trans h1, k2 h2, k3 h3, k4 h4⟩
  · intro r hc
    rw [hr, hh]
    exact h.remote r (by unfold ConfirmedAs at hc ⊢; rwa [hh] at hc)
  · rw [hs, hh]; exact h.speaks
  · intro r hc
    rw [hs, hh]
    exact h.addressed r (by unfold ConfirmedAs at hc ⊢; rwa [hh] at hc)

/-- A change that sends a message of the channel, when it was confirmed or closed. -/
theorem Opener.sendsOne {ch ch' : Channel} {m : Message} (h : ch.Opener)
    (hh : ch'.handled = ch.handled) (hr : ch'.remoteId = ch.remoteId)
    (hl : ch'.localId = ch.localId) (ho : ch'.opening = ch.opening)
    (hp : ch'.maxIncomingPayload = ch.maxIncomingPayload) (hs : ch'.sent = ch.sent)
    (hq : ch'.msg = ch.msg) (hheld : ch'.held = ch.held)
    (hwrites : ch.writes = [] → ch'.writes = []) (hreads : ch.reads = [] → ch'.reads = [])
    (hcw : ch.closeWrites = 0 → ch'.closeWrites = 0)
    (hm : m.channel = (ch.remoteId, true)) (hc : m.isConfirm = false)
    (hcredit : m.allowance = m.adjustment)
    (hwhy : ch.handled.any Message.isConfirm = true ∨ ch.handled.any Message.isClose = true) :
    (ch'.sends [m]).Opener := by
  have hopen : m.isOpen = false := by
    cases m <;> simp [Message.isOpen, Message.channel] at hm ⊢
  refine ⟨?_, ?_, ?_, ?_, ?_, ?_, ?_, ?_, ?_, ?_, ?_⟩
  · simpa [sends, hs, hc] using h.noConfirm
  · intro m' hm'
    simp only [sends, hs, hl] at hm' ⊢
    rcases List.mem_append.mp hm' with hm' | hm'
    · exact h.opens m' hm'
    · rw [← List.mem_singleton.mp hm'] at hopen
      cases hopen
  · simpa [sends, hs, hopen] using h.once
  · intro hreg
    obtain ⟨h1, h2, h3⟩ := h.registered (ho ▸ hreg)
    refine ⟨?_, hp.trans h2, hh ▸ h3⟩
    simpa [sends, hs, hopen] using h1
  · intro hreg
    exact hp.trans (h.payload fun h' => hreg (ho.trans h'))
  · simpa [sends, hq, hh] using h.queued
  · intro hn
    obtain ⟨h1, h2, h3, h4⟩ := h.idle (hh ▸ hn)
    exact ⟨hheld.trans h1, hwrites h2, hreads h3, hcw h4⟩
  · intro r hc' hconf
    exact hr.trans (h.remote r (fun m hm => hc' m (hh ▸ hm)) (hh ▸ hconf))
  · intro m' hm'
    simp only [sends, hs, hh] at hm' ⊢
    rcases List.mem_append.mp hm' with hm' | hm'
    · exact h.speaks m' hm'
    · exact .inr hwhy
  · intro r hc' hher m' hm'
    simp only [sends, hs, hh] at hm' hher
    have hc'' : ch.ConfirmedAs r := fun m hm => hc' m (hh ▸ hm)
    rcases List.mem_append.mp hm' with hm' | hm'
    · exact h.addressed r hc'' hher m' hm'
    · right
      rw [List.mem_singleton.mp hm', hm, h.remote r hc'' (hwhy.elim id hher.any)]
  · simp only [sends, hs, creditOf_append, adjustOf_append, creditOf_cons, creditOf_nil,
      adjustOf_cons, adjustOf_nil, offerOf_snoc hopen hc, h.grants, hcredit]
    omega

theorem Opener.handles {ch ch' : Channel} {m : Message} (h : ch.Opener)
    (hh : ch'.handled = ch.handled ++ [m]) (hl : ch'.localId = ch.localId)
    (ho : ch'.opening = ch.opening) (hp : ch'.maxIncomingPayload = ch.maxIncomingPayload)
    (hs : ch'.sent = ch.sent) (hq : ch'.msg = ch.msg) (hheld : ch'.held = ch.held)
    (hwrites : ch'.writes = ch.writes) (hreads : ch'.reads = ch.reads)
    (hcw : ch'.closeWrites = ch.closeWrites)
    (hdata : ch.maxIncomingPayload = 0 → body m = [])
    (hr : ∀ r, (∀ m', m = .openConfirm m' → m'.senderID = r) → m.isConfirm = true ∨ ch.remoteId = r →
      ch'.remoteId = r) : (ch'.sends []).Opener := by
  have hold : ∀ r, ch'.ConfirmedAs r → ch.ConfirmedAs r := fun r hc m' hm' =>
    hc m' (by rw [hh]; exact List.mem_append_left _ hm')
  rw [sends_nil]
  refine ⟨hs ▸ h.noConfirm, hs ▸ hl ▸ h.opens, hs ▸ h.once, ?_, ?_, ?_, ?_, ?_, ?_, ?_,
    hs ▸ h.grants⟩
  · intro hreg
    obtain ⟨h1, h2, h3⟩ := h.registered (ho ▸ hreg)
    exact ⟨hs ▸ h1, hp.trans h2, by simp [hh, h3, hdata h2]⟩
  · intro hreg
    exact hp.trans (h.payload fun h' => hreg (ho.trans h'))
  · intro m' hm'
    rw [hh]
    exact List.mem_append_left _ (h.queued m' (hq ▸ hm'))
  · intro hn
    rw [hh, List.any_append, Bool.or_eq_false_iff] at hn
    obtain ⟨h1, h2, h3, h4⟩ := h.idle hn.1
    exact ⟨hheld.trans h1, hwrites.trans h2, hreads.trans h3, hcw.trans h4⟩
  · intro r hc hconf
    refine hr r (fun m' hm' => hc m' (by rw [hh, ← hm']; simp)) ?_
    rw [hh, List.any_append, Bool.or_eq_true] at hconf
    rcases hconf with hconf | hconf
    · exact .inr (h.remote r (hold r hc) hconf)
    · exact .inl (by simpa using hconf)
  · intro m' hm'
    rw [hs] at hm'
    rw [hh, List.any_append, List.any_append]
    rcases h.speaks m' hm' with ho | hc | hc
    · exact .inl ho
    · exact .inr (.inl (by rw [hc, Bool.true_or]))
    · exact .inr (.inr (by rw [hc, Bool.true_or]))
  · intro r hc hher
    rw [hs]
    exact h.addressed r (hold r hc) (hher.mono (by rw [hh]; exact List.prefix_append _ _))

/-- The message that opens the channel, with the window that was never touched. -/
theorem Opener.sendOpen {ch : Channel} (h : ch.Opener) (ha : ch.Accounts) (ok : Bool)
    (ho : ch.opening = .registered) :
    ({ ch with
        maxIncomingPayload := channelMaxPacket
        opening := if ok then .waiting else .returned : Channel }.sends
      [.openMsg ⟨ch.localId, ch.myWindow, channelMaxPacket⟩]).Opener := by
  obtain ⟨hopen, hzero, hdata⟩ := h.registered ho
  obtain ⟨-, hwin⟩ := ha.untouched hdata
  have hne : (if ok then OpenCall.waiting else .returned) ≠ .registered := by
    cases ok <;> simp
  refine ⟨by simpa [sends, Message.isConfirm] using h.noConfirm, ?_, ?_, fun hr => absurd hr hne,
    fun _ => rfl, h.queued, h.idle, h.remote, ?_, ?_, ?_⟩
  · intro m hm
    rcases List.mem_append.mp hm with hm | hm
    · exact h.opens m hm
    · rw [Message.openMsg.inj (List.mem_singleton.mp hm), hwin]
      rfl
  · have hcount : ch.sent.countP Message.isOpen = 0 := by
      rw [List.countP_eq_zero]
      simpa using hopen
    simp [sends, hcount, Message.isOpen]
  · intro m hm
    rcases List.mem_append.mp hm with hm | hm
    · exact h.speaks m hm
    · rw [List.mem_singleton.mp hm]; exact .inl rfl
  · intro r hc hher m hm
    rcases List.mem_append.mp hm with hm | hm
    · exact h.addressed r hc hher m hm
    · rw [List.mem_singleton.mp hm]; exact .inl rfl
  · have hgr := h.grants
    simp only [offerOf, hopen, h.noConfirm] at hgr
    simp [sends, offerOf, Message.isOpen, Message.allowance, Message.adjustment, hgr, hwin]

theorem Opener.move {ch ch' : Channel} {who : Actor} {ms : List Message} (h : ch.Opener)
    (hd : ch.direction = .outbound) (ha : ch.Accounts) (hm : Move ch who ms ch') :
    (ch'.sends ms).Opener := by
  -- a channel that is in use was confirmed
  have hused : (ch.held = false → ch.writes = [] → ch.reads = [] → ch.closeWrites = 0 → False) →
      ch.handled.any Message.isConfirm = true ∨ ch.handled.any Message.isClose = true := by
    intro hno
    left
    by_contra hn
    obtain ⟨h1, h2, h3, h4⟩ := h.idle (by simpa using hn)
    exact hno h1 h2 h3 h4
  cases hm with
  | sendOpen ok ho => exact h.sendOpen ha ok ho
  | @opened m msg ho hq =>
    have hin : .openConfirm m ∈ ch.handled := h.queued _ (by rw [hq]; simp)
    refine h.quiet rfl rfl rfl rfl rfl (by simp [ho])
      (fun m' hm' => h.queued m' (by rw [hq]; exact List.mem_cons_of_mem _ hm')) fun hn => ?_
    exact absurd rfl (any_false hn _ hin)
  | openFailed msg ho hq =>
    exact h.quiet rfl rfl rfl rfl rfl (by simp [ho]) (fun m' hm' => h.queued m' (hq m' hm'))
      fun _ => ⟨rfl, id, id, id⟩
  | hold hd' => rw [hd] at hd'; cases hd'
  | confirm c hd' hn => rw [hd] at hd'; cases hd'
  | write data hh hs =>
    refine h.quiet rfl rfl rfl rfl rfl .rfl h.queued fun hn => ?_
    rw [(h.idle hn).1] at hh
    cases hh
  | closeWrite hh =>
    refine h.quiet rfl rfl rfl rfl rfl .rfl h.queued fun hn => ?_
    rw [(h.idle hn).1] at hh
    cases hh
  | @read bs b n hh hr hne =>
    refine h.quiet rfl rfl rfl rfl rfl .rfl h.queued fun hn => ?_
    rw [(h.idle hn).1] at hh
    cases hh
  | writeDone hk hg hd =>
    exact h.quiet rfl rfl rfl rfl rfl .rfl h.queued fun _ =>
      ⟨rfl, fun hw => by simp [writeReturn, hw], id, id⟩
  | refused hk hg hr hd =>
    exact h.quiet rfl rfl rfl rfl rfl .rfl h.queued fun _ =>
      ⟨rfl, fun hw => by simp [writeReturn, hw], id, id⟩
  | granted hk hg hr hd =>
    exact h.quiet rfl rfl rfl rfl rfl .rfl h.queued fun _ => ⟨rfl, fun hw => by simp [hw], id, id⟩
  | dropEOF hn hs =>
    exact h.quiet rfl rfl rfl rfl rfl .rfl h.queued fun _ => ⟨rfl, id, id, fun hw => by simp [hw]⟩
  | credit hk =>
    exact h.quiet rfl rfl rfl rfl rfl .rfl h.queued fun _ => ⟨rfl, id, fun hw => by simp [hw], id⟩
  | dropAdjust hk hs =>
    exact h.quiet rfl rfl rfl rfl rfl .rfl h.queued fun _ => ⟨rfl, id, fun hw => by simp [hw], id⟩
  | sendData hk hg =>
    exact h.sendsOne rfl rfl rfl rfl rfl rfl rfl rfl (fun hw => by simp [hw]) id id rfl rfl rfl
      (hused fun _ hw _ _ => by simp [hw] at hk)
  | sendFailed hk hg =>
    exact h.sendsOne rfl rfl rfl rfl rfl rfl rfl rfl (fun hw => by simp [writeReturn, hw]) id id rfl
      rfl rfl (hused fun _ hw _ _ => by simp [hw] at hk)
  | sendEOF hn hs =>
    exact h.sendsOne rfl rfl rfl rfl rfl rfl rfl rfl id id (fun hw => by simp [hw]) rfl rfl rfl
      (hused fun _ _ _ hc => hn hc)
  | close hs hh =>
    exact h.sendsOne rfl rfl rfl rfl rfl rfl rfl rfl id id id rfl rfl rfl
      (hused fun hf _ _ _ => by rw [hf] at hh; cases hh)
  | adjust hk hs =>
    exact h.sendsOne rfl rfl rfl rfl rfl rfl rfl rfl id (fun hr => by simp [hr]) id rfl rfl rfl
      (hused fun _ _ hr _ => by simp [hr] at hk)
  | reply c hs hc =>
    exact h.sendsOne rfl rfl rfl rfl rfl rfl rfl rfl id id id rfl rfl rfl (.inr hc)
  | queue c hm =>
    refine h.quiet rfl rfl rfl rfl rfl .rfl (fun m' hm' => ?_) fun _ => ⟨rfl, id, id, id⟩
    rcases List.mem_append.mp hm' with hm' | hm'
    · exact h.queued m' hm'
    · rw [List.mem_singleton.mp hm']; exact hm
  | @gotData m hf h1 h2 h3 =>
    refine h.handles rfl rfl rfl rfl rfl rfl rfl rfl rfl rfl (fun hz => ?_)
      fun r _ hr => hr.resolve_left Bool.false_ne_true
    rw [hz] at h1
    have hlen : m.length.toNat = m.data.length := by
      rw [h2, UInt32.toNat_ofNat']
      exact Nat.mod_eq_of_lt hf
    have hle : m.data.length ≤ 0 := hlen ▸ h1
    exact List.length_eq_zero_iff.mp (Nat.le_zero.mp hle)
  | gotEOF | gotClose | gotAdjust | gotFailure =>
    exact h.handles rfl rfl rfl rfl rfl rfl rfl rfl rfl rfl (fun _ => rfl)
      fun r _ hr => hr.resolve_left Bool.false_ne_true
  | gotConfirm hd' ha' =>
    exact h.handles rfl rfl rfl rfl rfl rfl rfl rfl rfl rfl (fun _ => rfl) fun r hc _ => hc _ rfl
  | gotConfirmOver hd' ha' =>
    exact h.handles rfl rfl rfl rfl rfl rfl rfl rfl rfl rfl (fun _ => rfl) fun r hc _ => hc _ rfl
  | _ => exact h.quiet rfl rfl rfl rfl rfl .rfl h.queued fun _ => ⟨rfl, id, id, id⟩

/-! ## The confirmation first -/

/-- An accepted channel before and after its confirmation. -/
structure ConfirmsFirst (ch : Channel) : Prop where
  unused : ch.sent.any Message.isConfirm = false →
    ch.sent = [] ∧ ch.writes = [] ∧ ch.reads = [] ∧ ch.closeWrites = 0
  first : ∀ m ∈ ch.sent.head?, m.isConfirm = true

theorem ConfirmsFirst.quiet {ch ch' : Channel} (h : ch.ConfirmsFirst) (hs : ch'.sent = ch.sent)
    (hu : ch.sent.any Message.isConfirm = false → (ch.writes = [] → ch'.writes = []) ∧
      (ch.reads = [] → ch'.reads = []) ∧ (ch.closeWrites = 0 → ch'.closeWrites = 0)) :
    (ch'.sends []).ConfirmsFirst := by
  rw [sends_nil]
  refine ⟨fun hn => ?_, hs ▸ h.first⟩
  rw [hs] at hn
  obtain ⟨h1, h2, h3, h4⟩ := h.unused hn
  obtain ⟨k2, k3, k4⟩ := hu hn
  exact ⟨hs.trans h1, k2 h2, k3 h3, k4 h4⟩

theorem ConfirmsFirst.sendsOne {ch ch' : Channel} {m : Message} (h : ch.ConfirmsFirst)
    (hs : ch'.sent = ch.sent)
    (hused : ch.writes = [] → ch.reads = [] → ch.closeWrites = 0 →
      ch.sent.any Message.isConfirm = false → False) : (ch'.sends [m]).ConfirmsFirst := by
  have hc : ch.sent.any Message.isConfirm = true := by
    by_contra hn
    have hn : ch.sent.any Message.isConfirm = false := by simpa using hn
    obtain ⟨-, h2, h3, h4⟩ := h.unused hn
    exact hused h2 h3 h4 hn
  refine ⟨fun hn => ?_, fun m' hm' => ?_⟩
  · simp [sends, hs, hc] at hn
  · cases hl : ch.sent with
    | nil => rw [hl] at hc; cases hc
    | cons a l =>
      simp only [sends, hs, hl, List.cons_append, List.head?_cons] at hm'
      exact h.first m' (by rw [hl]; exact hm')

/-! ## Both ends -/

/-- What both ends of a channel say. -/
structure Spoken (ch : Channel) : Prop where
  grants : creditOf ch.sent = adjustOf ch.sent + offerOf ch.sent
  opens : ∀ m, .openMsg m ∈ ch.sent → ch.direction = .outbound ∧
    m = ⟨ch.localId, channelWindowSize, channelMaxPacket⟩
  confirms : ∀ m, .openConfirm m ∈ ch.sent → ch.direction = .inbound ∧
    m = ⟨ch.remoteId, ch.localId, channelWindowSize, channelMaxPacket⟩
  noFailure : ch.sent.any Message.isFailure = false
  unclosed : ch.sentClose = false → ch.sent.any Message.isClose = false

theorem Spoken.maxPacket {ch : Channel} (h : Spoken ch) :
    ∀ m ∈ ch.sent, m.maxPacket ≤ channelMaxPacket.toNat := by
  intro m hm
  cases m with
  | openMsg m => rw [(h.opens m hm).2]; exact Nat.le_refl _
  | openConfirm m => rw [(h.confirms m hm).2]; exact Nat.le_refl _
  | _ => exact Nat.zero_le _

/-- An accepted channel that handles what its peer has sent speaks to the peer. -/
theorem Spoken.opened {ch peer : Channel} (h : Spoken peer) (ha : ch.Acceptor)
    (hh : ch.handled <+: peer.sent) :
    .openMsg ⟨ch.remoteId, channelWindowSize, channelMaxPacket⟩ ∈ peer.sent ∧
      ch.remoteId = peer.localId := by
  obtain ⟨m, rest, hm, hid, -⟩ := ha.opened
  have hsent := hh.subset (by rw [hm]; exact List.mem_cons_self)
  have heq := (h.opens m hsent).2
  have hremote : ch.remoteId = peer.localId := by rw [hid, heq]
  rw [hremote, ← heq]
  exact ⟨hsent, rfl⟩

/-- And a channel that was opened is confirmed under the id of the peer. -/
theorem Spoken.confirmedAs {ch peer : Channel} (h : Spoken peer) (hh : ch.handled <+: peer.sent) :
    ch.ConfirmedAs peer.localId := by
  intro m hm
  rw [(h.confirms m (hh.subset hm)).2]

end Channel

namespace Session

variable {s : Session}

theorem acceptors {ok : Session → Act → Prop} (run : Run next ok newSession s) :
    ∀ c < s.fresh, (s.heap c).direction = .inbound → (s.heap c).Acceptor := by
  refine channel_invariant (P := fun ch => ch.direction = .inbound → ch.Acceptor) (fun _ => nofun)
    (fun m id _ => ?_) (fun s a c who ms ch hr hc _ hby h hm hd => ?_) run
  · exact ⟨⟨m, [], rfl, rfl, by simp⟩, rfl, rfl, by simp [inboundChannel], by simp [inboundChannel],
      fun _ => rfl, rfl⟩
  · rw [show (ch.sends ms).direction = _ from hm.extends.direction] at hd
    refine (h hd).move hd (accounts hr c hc) (fun m hwho => ?_) hm
    subst hwho
    cases hby with
    | recv ho _ _ => exact ((Inv.of_run hr).confirmed c hc hd).resolve_left (by simp [ho])

theorem openers {ok : Session → Act → Prop} (run : Run next ok newSession s) :
    ∀ c < s.fresh, (s.heap c).direction = .outbound → (s.heap c).Opener := by
  refine channel_invariant (P := fun ch => ch.direction = .outbound → ch.Opener) (fun id _ => ?_)
    (fun _ _ => nofun) (fun s a c who ms ch hr hc _ hby h hm hd => ?_) run
  · exact {
      noConfirm := rfl
      opens := by simp [outboundChannel]
      once := by simp [outboundChannel]
      registered := fun _ => ⟨rfl, rfl, rfl⟩
      payload := fun hne => absurd rfl hne
      queued := by simp [outboundChannel]
      idle := fun _ => ⟨rfl, rfl, rfl, rfl⟩
      remote := fun _ _ => nofun
      speaks := by simp [outboundChannel]
      addressed := by simp [outboundChannel]
      grants := rfl }
  · rw [show (ch.sends ms).direction = _ from hm.extends.direction] at hd
    exact (h hd).move hd (accounts hr c hc) hm

theorem spoken {ok : Session → Act → Prop} (run : Run next ok newSession s) :
    ∀ c < s.fresh, (s.heap c).Spoken := by
  have hfail : ∀ c < s.fresh, (s.heap c).sent.any Message.isFailure = false := by
    refine channel_invariant (P := fun ch => ch.sent.any Message.isFailure = false)
      (fun _ => rfl) (fun _ _ => rfl) (fun s a c who ms ch _ _ _ _ h hm => ?_) run
    have hms : ms.any Message.isFailure = false := by cases hm <;> rfl
    rw [Channel.sends, hm.sent_eq, List.any_append, h, hms, Bool.or_self]
  have hclose : ∀ c < s.fresh, (s.heap c).sentClose = false →
      (s.heap c).sent.any Message.isClose = false := by
    refine channel_invariant (P := fun ch => ch.sentClose = false → ch.sent.any Message.isClose = false)
      (fun _ _ => rfl) (fun _ _ _ => rfl) (fun s a c who ms ch _ _ _ _ h hm => ?_) run
    cases hm with
    | close | reply | markClosed =>
      intro hc
      cases hc
    | _ =>
      simpa [Channel.sends, Channel.writeReturn, Channel.CloseWrite, Channel.confirmMessage,
        Channel.dataMessage, Message.isClose] using h
  intro c hc
  cases hd : (s.heap c).direction with
  | inbound =>
    have h := acceptors run c hc hd
    exact ⟨h.grants, fun m hm => absurd rfl (any_false h.not_isOpen _ hm),
      fun m hm => ⟨hd, h.confirm m hm⟩, hfail c hc, hclose c hc⟩
  | outbound =>
    have h := openers run c hc hd
    exact ⟨h.grants, fun m hm => ⟨hd, h.opens m hm⟩,
      fun m hm => absurd rfl (any_false h.noConfirm _ hm), hfail c hc, hclose c hc⟩

/-- The application uses an accepted channel only after its `OpenConfirmMessage` was
encoded. -/
def UsesConfirmed (s : Session) : Act → Prop
  | .call c (.write _) | .call c .closeWrite | .call c .close =>
    (s.heap c).direction = .inbound → (s.heap c).sent.any Message.isConfirm = true
  | _ => True

instance (s : Session) (a : Act) : Decidable (s.UsesConfirmed a) := by
  unfold UsesConfirmed; split <;> infer_instance

theorem confirmsFirst_move {a : Act} {c : Nat} {who : Channel.Actor} {ms : List Message}
    {ch : Channel} (hd : (s.heap c).direction = .inbound) (ha : (s.heap c).Accounts)
    (hacc : (s.heap c).Acceptor) (hok : s.UsesConfirmed a)
    (hby : s.By c a who) (h : (s.heap c).ConfirmsFirst) (hm : Channel.Move (s.heap c) who ms ch) :
    (ch.sends ms).ConfirmsFirst := by
  cases hm with
  | sendOpen ok ho => rw [hacc.ready] at ho; cases ho
  | confirm c' _ hn =>
    obtain ⟨hnil, -⟩ := h.unused hn
    refine ⟨fun hn' => ?_, fun m hm => ?_⟩
    · simp [Channel.sends, Channel.confirmMessage, Message.isConfirm] at hn'
    · simp only [Channel.sends, hnil, List.nil_append, List.head?_cons, Option.mem_some_iff] at hm
      rw [← hm]
      rfl
  | write data hh hs =>
    cases hby
    exact h.quiet rfl fun hn => by rw [hok hd] at hn; cases hn
  | closeWrite hh =>
    cases hby
    exact h.quiet rfl fun hn => by rw [hok hd] at hn; cases hn
  | @read bs b n hh hr hne =>
    refine h.quiet rfl fun hn => ?_
    obtain ⟨hcont, -⟩ := hacc.untouched ha hn
    obtain ⟨hsplit, -⟩ := Buffer.Read_bytes hr
    rw [hcont] at hsplit
    exact absurd (List.append_eq_nil_iff.mp hsplit.symm).1 hne
  | writeDone hk hg hd =>
    exact h.quiet rfl fun _ => ⟨fun hw => by simp [Channel.writeReturn, hw], id, id⟩
  | refused hk hg hr hd =>
    exact h.quiet rfl fun _ => ⟨fun hw => by simp [Channel.writeReturn, hw], id, id⟩
  | granted hk hg hr hd => exact h.quiet rfl fun _ => ⟨fun hw => by simp [hw], id, id⟩
  | dropEOF hn hs => exact h.quiet rfl fun _ => ⟨id, id, fun hw => by simp [hw]⟩
  | credit hk => exact h.quiet rfl fun _ => ⟨id, fun hw => by simp [hw], id⟩
  | dropAdjust hk hs => exact h.quiet rfl fun _ => ⟨id, fun hw => by simp [hw], id⟩
  | sendData hk hg => exact h.sendsOne rfl fun hw _ _ _ => by simp [hw] at hk
  | sendFailed hk hg => exact h.sendsOne rfl fun hw _ _ _ => by simp [hw] at hk
  | sendEOF hn hs => exact h.sendsOne rfl fun _ _ hcw _ => hn hcw
  | adjust hk hs => exact h.sendsOne rfl fun _ hr _ _ => by simp [hr] at hk
  | close hs hh =>
    cases hby
    exact h.sendsOne rfl fun _ _ _ hn => by rw [hok hd] at hn; cases hn
  | reply c' hs hcl =>
    refine h.sendsOne rfl fun _ _ _ hn => ?_
    obtain ⟨m, rest, hh, -, -⟩ := hacc.opened
    have hlen := hacc.early hn
    rw [hh, List.length_cons, Nat.add_eq_right, List.length_eq_zero_iff] at hlen
    rw [hh, hlen] at hcl
    cases hcl
  | _ => exact h.quiet rfl fun _ => ⟨id, id, id⟩

theorem confirmsFirst (run : Run next UsesConfirmed newSession s) :
    ∀ c < s.fresh, (s.heap c).direction = .inbound → (s.heap c).ConfirmsFirst := by
  refine channel_invariant (P := fun ch => ch.direction = .inbound → ch.ConfirmsFirst)
    (fun _ => nofun) (fun m id _ => ⟨fun _ => ⟨rfl, rfl, rfl, rfl⟩, by simp [inboundChannel]⟩)
    (fun s a c who ms ch hr hc hok hby h hm hd => ?_) run
  rw [show (ch.sends ms).direction = _ from hm.extends.direction] at hd
  exact confirmsFirst_move hd (accounts hr c hc) (acceptors hr c hc hd) hok hby (h hd) hm

end Session

end Qtalk.Mux
