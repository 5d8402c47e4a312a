import Qtalk.System.Fifo

/-!
# The next message is accepted

The counters of two connected ends bound each other: data in flight fits the receiver's
window, credit in flight the sender's, and both ends keep to the packet size they agreed
on. So the next message of a channel reaches the other end (`Joined.carries`) and is
accepted there (`Joined.accepts`), against any schedule of the two applications.
-/

namespace Qtalk.Mux
open Qtalk.Codec Qtalk.Lib

theorem creditOf_mono {l l' : List Message} (h : l <+: l') : creditOf l ≤ creditOf l' := by
  obtain ⟨t, rfl⟩ := h
  rw [creditOf_append]
  exact Nat.le_add_right _ _

namespace System

variable {ok : System → Act → Prop} {y : System} {x : Side} {c d : Nat}

/-! ## What is in flight fits -/

section Fits

variable (run : Run next ok System.start y) (h : Joined y x c d)

include run h

theorem Joined.fresh : c < (y.sess x).fresh ∧ d < (y.sess x.other).fresh :=
  (Wired.of_run run).lt x c d h.peer

/-- What the ends have sent and handled, as far as credit and data go. -/
theorem Joined.balance :
    creditOf (y.chan x c).handled ≤ adjustOf (y.chan x.other d).sent +
        offerOf (y.chan x.other d).sent ∧
      (dataOf (y.chan x.other d).handled).length + (dataOf (y.flow x c)).length =
        (dataOf (y.chan x c).sent).length := by
  constructor
  · have hle := creditOf_mono h.handled
    have hg := (spoken run (h.fresh run).2).grants
    omega
  · rw [← List.length_append, ← dataOf_append, h.there]

/-- Data in flight fits the receiver's window. -/
theorem Joined.data_le : (dataOf (y.flow x c)).length ≤ (y.chan x.other d).myWindow.toNat := by
  obtain ⟨hc, hd⟩ := h.fresh run
  have hC := accounts run hc
  have hD := accounts run hd
  obtain ⟨hcredit, hdata⟩ := h.balance run
  have hoffer := offerOf_le (y.chan x.other d).sent
  have hspent := hC.spent.le
  have hwin := hC.credited.window
  have hle := hC.credited.le
  have hstream := congrArg List.length hD.streamed
  rw [List.length_append] at hstream
  have hret := hD.returned.le
  have hacc := hD.accounted
  rw [Channel.Accounted] at hacc
  have hsplit := ReadCall.total_amount (y.chan x.other d).reads
  omega

/-- Credit in flight fits the sender's window. -/
theorem Joined.credit_le : (y.chan x.other d).remoteWin.win.toNat + creditOf (y.flow x c) ≤
    channelWindowSize.toNat := by
  obtain ⟨hc, hd⟩ := h.fresh run
  have hC := accounts run hc
  have hD := accounts run hd
  have hdata := congrArg (fun l => (dataOf l).length) h.back
  simp only [Side.other_other, dataOf_append, List.length_append] at hdata
  have hcredit := congrArg creditOf h.there
  rw [creditOf_append] at hcredit
  have hg := (spoken run hc).grants
  have hoffer := offerOf_le (y.chan x c).sent
  have hspent := hD.spent.le
  have hwin := hD.credited.window
  have hle := hD.credited.le
  have hret := hC.returned.le
  have hstream := congrArg List.length hC.streamed
  rw [List.length_append] at hstream
  omega

theorem Joined.not_open {m : OpenMessage} : .openMsg m ∉ y.flow x c := fun hm => by
  have := ((Wired.of_run run).unpaired run hm).2
  rw [h.peer] at this
  cases this

theorem Joined.inbound_of (hd : (y.chan x.other d).direction = .outbound) :
    (y.chan x c).direction = .inbound :=
  ((Wired.of_run run).inbound_iff h.peer).mpr hd

theorem Joined.outbound_of (hc : (y.chan x c).direction = .inbound) :
    (y.chan x.other d).direction = .outbound :=
  ((Wired.of_run run).inbound_iff h.peer).mp hc

/-- An accepted channel handled the `OpenMessage` its peer sent. -/
theorem Joined.opened (hin : (y.chan x c).direction = .inbound) :
    .openMsg ⟨(y.chan x c).remoteId, channelWindowSize, channelMaxPacket⟩ ∈ (y.chan x.other d).sent ∧
      (y.chan x c).remoteId = (y.chan x.other d).localId := by
  obtain ⟨hc, hd⟩ := h.fresh run
  exact (spoken run hd).opened (acceptor run hc hin) h.handled

theorem Joined.payload : (y.chan x.other d).maxIncomingPayload = channelMaxPacket := by
  obtain ⟨hc, hd⟩ := h.fresh run
  cases hdir : (y.chan x.other d).direction with
  | inbound => exact (acceptor run hd hdir).payload
  | outbound =>
    have hin := h.opened run (h.inbound_of run hdir)
    have ho := opener run hd hdir
    exact ho.payload fun hreg => any_false (ho.registered hreg).1 _ hin.1 rfl

theorem Joined.small {m : Message} (hm : m ∈ (y.chan x c).sent) :
    (body m).length ≤ channelMaxPacket.toNat := by
  obtain ⟨hc, hd⟩ := h.fresh run
  refine ((accounts run hc).sized.small channelMaxPacket.toNat fun m' hm' => ?_).2.2 m hm
  exact (spoken run hd).maxPacket m' (h.handled.subset hm')

theorem Joined.handleData {m : DataMessage} {rest : List Message}
    (hf : y.flow x c = .data m :: rest) : ∃ ch, (y.chan x.other d).handleData m = .ok ch := by
  have hin : .data m ∈ (y.chan x c).sent := by
    rw [← h.there, hf]
    exact List.mem_append_right _ List.mem_cons_self
  have hsize : m.length.toNat = m.data.length :=
    (accounts run (h.fresh run).1).sized.wellSized _ hin
  have hsmall : m.data.length ≤ channelMaxPacket.toNat := h.small run hin
  have hfit := h.data_le run
  rw [hf, dataOf_cons, List.length_append] at hfit
  simp only [body] at hfit
  refine ⟨_, if_neg ?_ |>.trans (if_neg ?_ |>.trans (if_neg ?_))⟩
  · rw [h.payload run, gt_iff_lt, UInt32.lt_iff_toNat_lt]
    omega
  · rw [not_not, ← hsize, UInt32.ofNat_toNat]
  · rw [UInt32.lt_iff_toNat_lt]
    omega

theorem Joined.add {m : Message} {rest : List Message} (hf : y.flow x c = m :: rest) (n : UInt32)
    (hn : n.toNat = m.allowance) : ∃ win, (y.chan x.other d).remoteWin.add n = some win := by
  refine Window.add_isSome ?_
  have hfit := h.credit_le run
  have hsize : channelWindowSize.toNat = 2097152 := rfl
  rw [hf, creditOf_cons] at hfit
  omega

/-- The next message of a channel is always accepted. -/
theorem Joined.accepts {m : Message} {rest : List Message} (hf : y.flow x c = m :: rest) :
    ∃ r, (y.chan x.other d).handle d m = .ok r := by
  obtain ⟨hc, hd⟩ := h.fresh run
  have hin : m ∈ (y.chan x c).sent := by
    rw [← h.there, hf]
    exact List.mem_append_right _ List.mem_cons_self
  cases m with
  | openMsg m => exact absurd (by rw [hf]; exact List.mem_cons_self) (h.not_open run)
  | openConfirm m =>
    obtain ⟨hdir, hm⟩ := (spoken run hc).confirms m hin
    have hsize : m.maxPacketSize = channelMaxPacket := by rw [hm]
    simp only [Channel.handle, h.outbound_of run hdir, hsize, if_neg channelMaxPacket_ok]
    exact ⟨_, rfl⟩
  | openFailure m => exact absurd rfl (any_false (spoken run hc).noFailure _ hin)
  | windowAdjust m =>
    obtain ⟨win, hwin⟩ := h.add run hf m.additionalBytes rfl
    simp [Channel.handle, Channel.addWindow, hwin]
  | data m =>
    obtain ⟨ch, hch⟩ := h.handleData run hf
    exact ⟨(ch, []), by rw [Channel.handle, hch]; rfl⟩
  | eof m => exact ⟨_, rfl⟩
  | close m => exact ⟨_, rfl⟩

/-! ## What is in flight is addressed right -/

theorem Joined.confirmedAs : (y.chan x c).ConfirmedAs (y.chan x.other d).localId :=
  (spoken run (h.fresh run).2).confirmedAs h.handled

/-- What an end says to the other carries its id, given that a `CloseMessage` does not come
before the confirmation. -/
theorem Joined.addressed
    (hher : (y.chan x c).direction = .outbound → Channel.Heralded (y.chan x c).handled) {m : Message}
    (hm : m ∈ y.flow x c) : m.channel = ((y.chan x.other d).localId, true) := by
  have hc := (h.fresh run).1
  have hin : m ∈ (y.chan x c).sent := by
    rw [← h.there]
    exact List.mem_append_right _ hm
  cases hdir : (y.chan x c).direction with
  | inbound => rw [(acceptor run hc hdir).addressed m hin, (h.opened run hdir).2]
  | outbound =>
    refine ((opener run hc hdir).addressed _ (h.confirmedAs run) (hher hdir) m hin).resolve_left ?_
    intro hopen
    cases m with
    | openMsg m => exact h.not_open run hm
    | _ => cases hopen

/-- A channel that was not ended by its peer is listed. -/
theorem Joined.listed (hr : (y.sess x.other).running = true)
    (hend : (y.chan x.other d).ended = false) :
    (y.sess x.other).chanList.getChan (y.chan x.other d).localId = some d := by
  have hi := inv run x.other
  rw [ChanList.getChan_eq hi.short]
  refine (hi.unlisted hr d (h.fresh run).2).resolve_right fun he => ?_
  rw [chan] at hend
  rw [hend] at he
  cases he

theorem Joined.carries
    (hher : (y.chan x c).direction = .outbound → Channel.Heralded (y.chan x c).handled)
    (hend : y.flow x c ≠ [] → (y.chan x.other d).ended = false) : Carries y x c d := by
  intro hr m hm
  obtain ⟨rest, hf⟩ : ∃ rest, y.flow x c = m :: rest := by
    cases hl : y.flow x c with
    | nil => rw [hl] at hm; cases hm
    | cons m' rest => rw [hl] at hm; cases hm; exact ⟨rest, rfl⟩
  have hin : m ∈ y.flow x c := by rw [hf]; exact List.mem_cons_self
  have haddr := h.addressed run hher hin
  refine ⟨Session.dest_eq_some.mpr ⟨by rw [haddr], ?_⟩, h.accepts run hf⟩
  rw [haddr]
  exact h.listed run hr (hend (List.ne_nil_of_mem hin))

end Fits

end System

end Qtalk.Mux
