import Qtalk.Mux.ReceiveBound

/-!
# Accounts of one channel

What the counters of a channel have to do with its history, against any peer. On the
sending side credit is in the window, granted to a `Write` in progress or used up by data
sent; on the receiving side the data handled is read or pending, and what was read is
given back by window updates.
-/

namespace Qtalk.Mux
open Qtalk.Codec Qtalk.Lib

namespace ReadCall

/-- The bytes a `Read` has taken and not yet given back. -/
def amount : ReadCall → Nat
  | .took n => n.toNat
  | .credited n => n.toNat

/-- The bytes a `Read` has added to `myWindow` and not yet given back. -/
def unsent : ReadCall → Nat
  | .took _ => 0
  | .credited n => n.toNat

theorem total_amount (l : List ReadCall) :
    total amount l = total uncredited l + total unsent l := by
  induction l with
  | nil => rfl
  | cons o l ih =>
    cases o <;> simp only [total_cons, amount, uncredited, unsent, ih] <;> omega

end ReadCall

/-- The bytes granted to a `Write` and not yet encoded. -/
def WriteCall.space (w : WriteCall) : Nat :=
  match w.granted with
  | some g => g.toNat
  | none => 0

theorem WriteCall.space_eq (w : WriteCall) {g : UInt32} (hg : w.granted = some g) :
    w.space = g.toNat := by
  simp [space, hg]

namespace Channel

/-! ## What was handled -/

/-- The data handled is read or pending. -/
def Streamed (ch : Channel) : Prop := dataOf ch.handled = ch.got ++ ch.pending.content

theorem Streamed.move {ch ch' : Channel} {who : Actor} {ms : List Message} (h : Streamed ch)
    (hm : Move ch who ms ch') : Streamed (ch'.sends ms) := by
  unfold Streamed at h
  cases hm with
  | readNone hh hr =>
    obtain ⟨hc, -, -⟩ := Buffer.Read_bytes hr
    simpa [Streamed, sends, hc] using h
  | read hh hr hne =>
    obtain ⟨hc, -, -⟩ := Buffer.Read_bytes hr
    simpa [Streamed, sends, hc] using h
  | gotData => simp [Streamed, sends, body, h]
  | _ => simpa [Streamed, sends, writeReturn, CloseWrite, body] using h

/-! ## What was read -/

/-- What was read is given back, or in the hands of a `Read`. -/
structure Returned (ch : Channel) : Prop where
  le : adjustOf ch.sent + total ReadCall.amount ch.reads ≤ ch.got.length
  /-- nothing is kept back before the channel is closed -/
  eq : ch.sentClose = false → adjustOf ch.sent + total ReadCall.amount ch.reads = ch.got.length

theorem Returned.move {ch ch' : Channel} {who : Actor} {ms : List Message} (h : Returned ch)
    (hacc : Accounted ch) (hm : Move ch who ms ch') : Returned (ch'.sends ms) := by
  obtain ⟨hle, heq⟩ := h
  cases hm with
  | @read bs b n hh hr hne =>
    have hn : (UInt32.ofNat bs.length).toNat = bs.length := by
      have hsize : channelWindowSize.toNat = 2097152 := rfl
      have hl := congrArg List.length (Buffer.Read_bytes hr).1
      rw [List.length_append] at hl
      rw [Accounted] at hacc
      rw [UInt32.toNat_ofNat']
      exact Nat.mod_eq_of_lt (by omega)
    constructor <;>
      simp only [sends, List.append_nil, total_append, total_cons, total_nil, ReadCall.amount, hn,
        List.length_append]
    · omega
    · intro hc
      have := heq hc
      omega
  | @credit k n hk =>
    have hset := total_set (f := ReadCall.amount) (b := .credited n) hk
    simp only [ReadCall.amount] at hset
    constructor <;> simp only [sends, List.append_nil]
    · omega
    · intro hc
      have := heq hc
      omega
  | @adjust k n hk hs =>
    have herase := total_eraseIdx (f := ReadCall.amount) hk
    simp only [ReadCall.amount] at herase
    have := heq hs
    constructor <;>
      simp only [sends, adjustOf_append, adjustOf_cons, adjustOf_nil, Message.adjustment]
    · omega
    · intro _
      omega
  | @dropAdjust k n hk hs =>
    have herase := total_eraseIdx (f := ReadCall.amount) hk
    constructor <;> simp only [sends, List.append_nil, hs]
    · omega
    · intro hc
      cases hc
  | close | reply | markClosed =>
    exact ⟨by simpa [sends, Message.adjustment] using hle, fun hc => by cases hc⟩
  | _ =>
    constructor
    · simpa [sends, writeReturn, CloseWrite, dataMessage, confirmMessage, Message.adjustment] using hle
    · simpa [sends, writeReturn, CloseWrite, dataMessage, confirmMessage, Message.adjustment] using heq

/-! ## Credit -/

/-- The window holds the credit that was never reserved. -/
structure Credited (ch : Channel) : Prop where
  window : ch.remoteWin.win.toNat + ch.reserved = ch.credit
  /-- the window never got more than was given -/
  le : ch.credit ≤ creditOf ch.handled

theorem Credited.move {ch ch' : Channel} {who : Actor} {ms : List Message} (h : Credited ch)
    (hm : Move ch who ms ch') : Credited (ch'.sends ms) := by
  obtain ⟨hwin, hle⟩ := h
  cases hm with
  | refused hk hg hr =>
    obtain ⟨hwin', -⟩ := Window.reserve_eq_some hr
    exact ⟨by simp only [sends, writeReturn]; omega, hle⟩
  | granted hk hg hr =>
    obtain ⟨hwin', -⟩ := Window.reserve_eq_some hr
    exact ⟨by simp only [sends]; omega, hle⟩
  | gotAdjust ha =>
    obtain ⟨hadd, -⟩ := Window.add_eq_some ha
    constructor <;>
      simp only [sends, creditOf_append, creditOf_cons, creditOf_nil, Message.allowance] <;> omega
  | gotConfirm hd ha =>
    obtain ⟨hadd, -⟩ := Window.add_eq_some ha
    constructor <;>
      simp only [sends, creditOf_append, creditOf_cons, creditOf_nil, Message.allowance] <;> omega
  | gotConfirmOver hd ha =>
    refine ⟨hwin, ?_⟩
    simp only [sends, creditOf_append, creditOf_cons, creditOf_nil, Message.allowance]
    omega
  | _ => exact ⟨hwin, by simpa [sends, Message.allowance, writeReturn, CloseWrite] using hle⟩

/-- What was reserved became data, or is granted to a `Write` in progress. -/
structure Spent (ch : Channel) : Prop where
  le : total WriteCall.space ch.writes + (dataOf ch.sent).length ≤ ch.reserved
  /-- every grant leads to data, unless the window is closed -/
  eq : ch.remoteWin.closed = false →
    total WriteCall.space ch.writes + (dataOf ch.sent).length = ch.reserved
  bounded : ∀ w ∈ ch.writes, w.space ≤ w.data.length
  closed : ch.remoteWin.closed = true → ch.sentClose = true

theorem space_take {w : WriteCall} {g : UInt32} (hg : w.granted = some g)
    (hb : w.space ≤ w.data.length) : (w.data.take g.toNat).length = w.space := by
  rw [List.length_take, ← w.space_eq hg]
  exact Nat.min_eq_left hb

/-- What is granted, sent and reserved stays in balance, and the window as it was. -/
theorem Spent.keep {ch ch' : Channel} (h : Spent ch)
    (hclosed : ch'.remoteWin.closed = ch.remoteWin.closed) (hsent : ch'.sentClose = ch.sentClose)
    (hbalance : total WriteCall.space ch'.writes + (dataOf ch'.sent).length + ch.reserved =
      total WriteCall.space ch.writes + (dataOf ch.sent).length + ch'.reserved)
    (hbound : ∀ w ∈ ch'.writes, w.space ≤ w.data.length) : Spent ch' := by
  have hle := h.le
  refine ⟨by omega, fun hc => ?_, hbound, fun hc => ?_⟩
  · have heq := h.eq (hclosed ▸ hc)
    omega
  · rw [hsent]
    exact h.closed (hclosed ▸ hc)

theorem Spent.move {ch ch' : Channel} {who : Actor} {ms : List Message} (h : Spent ch)
    (hm : Move ch who ms ch') : Spent (ch'.sends ms) := by
  obtain ⟨hle, heq, hbound, hclosed⟩ := id h
  cases hm with
  | @write data hh hs =>
    refine h.keep rfl rfl ?_ ?_
    · simp [sends, WriteCall.space]
    · exact List.forall_mem_append.mpr ⟨hbound, fun w hw => by
        rw [List.mem_singleton.mp hw]
        exact Nat.zero_le _⟩
  | writeDone hk hg hd =>
    have herase := total_eraseIdx (f := WriteCall.space) hk
    simp only [WriteCall.space, hg] at herase
    refine h.keep rfl rfl ?_ (forall_eraseIdx hbound)
    simp only [sends, writeReturn, List.append_nil]
    omega
  | refused hk hg hr =>
    obtain ⟨-, -, hcl, hcl'⟩ := Window.reserve_eq_some hr
    have herase := total_eraseIdx (f := WriteCall.space) hk
    simp only [WriteCall.space, hg] at herase
    -- what a closed window grants is lost
    refine ⟨?_, fun hc => ?_, forall_eraseIdx hbound, fun _ => hclosed hcl.symm⟩
    · simp only [sends, writeReturn, List.append_nil]
      omega
    · cases (hcl.trans hcl'.symm).trans hc
  | @granted k w g win hk hg hr =>
    obtain ⟨-, hg', hcl, hcl'⟩ := Window.reserve_eq_some hr
    have hset := total_set (f := WriteCall.space) (b := { w with granted := some g }) hk
    have h0 : w.space = 0 := by simp [WriteCall.space, hg]
    have hs : WriteCall.space { w with granted := some g } = g.toNat := rfl
    refine h.keep hcl' rfl ?_ ?_
    · simp only [sends, List.append_nil]
      omega
    · exact forall_set hbound (Nat.le_trans hg' (min_le_right _ _))
  | @sendData k w g hk hg =>
    have ht := space_take hg (hbound w (List.mem_of_getElem? hk))
    have hset := total_set (f := WriteCall.space) (b := ⟨w.done ++ w.data.take g.toNat,
      w.data.drop (w.data.take g.toNat).length, none⟩) hk
    have h0 : WriteCall.space ⟨w.done ++ w.data.take g.toNat,
      w.data.drop (w.data.take g.toNat).length, none⟩ = 0 := rfl
    rw [h0, ht] at hset
    refine h.keep rfl rfl ?_ (forall_set hbound (Nat.zero_le _))
    simp only [sends, dataMessage, dataOf_append, dataOf_cons, dataOf_nil, body,
      List.append_nil, List.length_append, ht]
    omega
  | @sendFailed k w g hk hg =>
    have ht := space_take hg (hbound w (List.mem_of_getElem? hk))
    have herase := total_eraseIdx (f := WriteCall.space) hk
    refine h.keep rfl rfl ?_ (forall_eraseIdx hbound)
    simp only [sends, writeReturn, dataMessage, dataOf_append, dataOf_cons, dataOf_nil,
      body, List.append_nil, List.length_append, ht]
    omega
  | closeWin c hs => exact ⟨by simpa using hle, fun hc => (by cases hc), hbound, fun _ => hs⟩
  | close | reply | markClosed =>
    exact ⟨by simpa [sends, body] using hle, by simpa [sends, body] using heq,
      hbound, fun _ => rfl⟩
  | gotAdjust ha =>
    obtain ⟨-, hcl⟩ := Window.add_eq_some ha
    exact h.keep hcl rfl (by simp [sends]) hbound
  | gotConfirm hd ha =>
    obtain ⟨-, hcl⟩ := Window.add_eq_some ha
    exact h.keep hcl rfl (by simp [sends]) hbound
  | _ => exact h.keep rfl rfl (by simp [sends, body, CloseWrite, confirmMessage]) hbound

/-! ## Packet sizes -/

/-- Data packets say their length, and are no longer than the peer allowed. -/
structure Sized (ch : Channel) : Prop where
  wellSized : ∀ m ∈ ch.sent, m.WellSized
  small : ∀ n, (∀ m ∈ ch.handled, m.maxPacket ≤ n) →
    ch.maxRemotePayload.toNat ≤ n ∧ (∀ w ∈ ch.writes, w.space ≤ n) ∧
      ∀ m ∈ ch.sent, (body m).length ≤ n

theorem wellSized_dataMessage (ch : Channel) {g : UInt32} {bs : List UInt8}
    (h : bs.length ≤ g.toNat) : (ch.dataMessage bs).WellSized := by
  show (UInt32.ofNat bs.length).toNat = bs.length
  rw [UInt32.toNat_ofNat']
  exact Nat.mod_eq_of_lt (Nat.lt_of_le_of_lt h g.toNat_lt)

theorem Sized.sendsOne {ch ch' : Channel} {m : Message} (h : Sized ch)
    (hsent : ch'.sent = ch.sent) (hhandled : ch'.handled = ch.handled)
    (hpay : ch'.maxRemotePayload = ch.maxRemotePayload)
    (hwrites : ∀ w ∈ ch'.writes, w ∈ ch.writes ∨ w.space = 0) (hm : m.WellSized)
    (hsmall : body m = [] ∨ ∃ w ∈ ch.writes, (body m).length ≤ w.space) : Sized (ch'.sends [m]) where
  wellSized m' hm' := by
    rw [sends, hsent, List.mem_append, List.mem_singleton] at hm'
    rcases hm' with hm' | rfl
    · exact h.wellSized m' hm'
    · exact hm
  small n hn := by
    simp only [sends, hhandled, hpay, hsent] at hn ⊢
    obtain ⟨h1, h2, h3⟩ := h.small n hn
    refine ⟨h1, fun w hw => ?_, fun m' hm' => ?_⟩
    · rcases hwrites w hw with hw | hw
      · exact h2 w hw
      · rw [hw]; exact Nat.zero_le n
    · rcases List.mem_append.mp hm' with hm' | hm'
      · exact h3 m' hm'
      · rw [List.mem_singleton.mp hm']
        rcases hsmall with hb | ⟨w, hw, hle⟩
        · rw [hb]; exact Nat.zero_le n
        · exact Nat.le_trans hle (h2 w hw)

theorem Sized.move {ch ch' : Channel} {who : Actor} {ms : List Message} (h : Sized ch)
    (hm : Move ch who ms ch') : Sized (ch'.sends ms) := by
  cases hm with
  | @write data hh hs =>
    refine ⟨by simpa using h.wellSized, fun n hn => ?_⟩
    obtain ⟨h1, h2, h3⟩ := h.small n hn
    refine ⟨h1, fun w hw => ?_, by simpa using h3⟩
    rcases List.mem_append.mp hw with hw | hw
    · exact h2 w hw
    · rw [List.mem_singleton.mp hw]; exact Nat.zero_le n
  | writeDone hk hg hd =>
    refine ⟨by simpa [writeReturn] using h.wellSized, fun n hn => ?_⟩
    obtain ⟨h1, h2, h3⟩ := h.small n hn
    exact ⟨h1, forall_eraseIdx h2, by simpa [writeReturn] using h3⟩
  | refused hk hg hr =>
    refine ⟨by simpa [writeReturn] using h.wellSized, fun n hn => ?_⟩
    obtain ⟨h1, h2, h3⟩ := h.small n hn
    exact ⟨h1, forall_eraseIdx h2, by simpa [writeReturn] using h3⟩
  | @granted k w g win hk hg hr =>
    obtain ⟨-, hle, -⟩ := Window.reserve_eq_some hr
    refine ⟨by simpa using h.wellSized, fun n hn => ?_⟩
    obtain ⟨h1, h2, h3⟩ := h.small n hn
    have hspace : g.toNat ≤ n := Nat.le_trans (Nat.le_trans hle (min_le_left _ _)) h1
    exact ⟨h1, forall_set h2 hspace, by simpa using h3⟩
  | @sendData k w g hk hg =>
    have hlen : (w.data.take g.toNat).length ≤ g.toNat := List.length_take_le _ _
    exact h.sendsOne rfl rfl rfl (forall_set (fun w' hw' => .inl hw') (.inr rfl))
      (wellSized_dataMessage ch hlen)
      (.inr ⟨w, List.mem_of_getElem? hk, by rw [w.space_eq hg]; exact hlen⟩)
  | @sendFailed k w g hk hg =>
    have hlen : (w.data.take g.toNat).length ≤ g.toNat := List.length_take_le _ _
    exact h.sendsOne rfl rfl rfl (fun w' hw' => .inl (List.mem_of_mem_eraseIdx hw'))
      (wellSized_dataMessage ch hlen)
      (.inr ⟨w, List.mem_of_getElem? hk, by rw [w.space_eq hg]; exact hlen⟩)
  | sendOpen | confirm | sendEOF | close | adjust | reply =>
    exact h.sendsOne rfl rfl rfl (fun w hw => .inl hw) trivial (.inl rfl)
  | gotConfirm hd ha =>
    refine ⟨by simpa using h.wellSized, fun n hn => ?_⟩
    obtain ⟨-, h2, h3⟩ := h.small n fun m hm => hn m (List.mem_append_left _ hm)
    exact ⟨hn _ (List.mem_append_right _ (List.mem_singleton_self _)), h2, by simpa using h3⟩
  | gotConfirmOver hd ha =>
    refine ⟨by simpa using h.wellSized, fun n hn => ?_⟩
    obtain ⟨-, h2, h3⟩ := h.small n fun m hm => hn m (List.mem_append_left _ hm)
    exact ⟨hn _ (List.mem_append_right _ (List.mem_singleton_self _)), h2, by simpa using h3⟩
  | gotData | gotEOF | gotClose | gotAdjust | gotFailure =>
    refine ⟨by simpa using h.wellSized, fun n hn => ?_⟩
    obtain ⟨h1, h2, h3⟩ := h.small n fun m hm => hn m (List.mem_append_left _ hm)
    exact ⟨h1, h2, by simpa using h3⟩
  | _ => exact ⟨by simpa [CloseWrite] using h.wellSized, by simpa [CloseWrite] using h.small⟩

/-! ## All accounts -/

structure Accounts (ch : Channel) : Prop where
  accounted : ch.Accounted
  streamed : ch.Streamed
  returned : ch.Returned
  credited : ch.Credited
  spent : ch.Spent
  sized : ch.Sized

theorem Accounts.move {ch ch' : Channel} {who : Actor} {ms : List Message} (h : Accounts ch)
    (hm : Move ch who ms ch') : Accounts (ch'.sends ms) :=
  ⟨h.accounted.move hm, h.streamed.move hm, h.returned.move h.accounted hm, h.credited.move hm,
    h.spent.move hm, h.sized.move hm⟩

end Channel

namespace Session

theorem accounts_outbound (id : UInt32) : (outboundChannel id).Accounts where
  accounted := Channel.accounted_new rfl rfl rfl
  streamed := rfl
  returned := ⟨Nat.le_refl _, fun _ => rfl⟩
  credited := ⟨rfl, Nat.le_refl _⟩
  spent := ⟨Nat.le_refl _, fun _ => rfl, by simp [outboundChannel], nofun⟩
  sized := ⟨by simp [outboundChannel], by simp [outboundChannel]⟩

theorem add_empty (n : UInt32) : (Window.add {} n).getD {} = { win := n } := by
  rw [Window.add]
  split
  · next h => rw [h]; rfl
  · rw [if_neg]
    · simp
    · simp [UInt32.lt_irrefl]

theorem accounts_inbound (m : OpenMessage) (id : UInt32) : (inboundChannel m id).Accounts where
  accounted := Channel.accounted_new rfl rfl rfl
  streamed := rfl
  returned := ⟨Nat.le_refl _, fun _ => rfl⟩
  credited := ⟨by simp [inboundChannel, add_empty], by simp [inboundChannel, Message.allowance]⟩
  spent := ⟨Nat.le_refl _, fun _ => rfl, by simp [inboundChannel], by simp [inboundChannel, add_empty]⟩
  sized := ⟨by simp [inboundChannel], by simp [inboundChannel, Message.maxPacket]⟩

theorem accounts {s : Session} {ok : Session → Act → Prop} (run : Run next ok newSession s) :
    ∀ c < s.fresh, (s.heap c).Accounts :=
  channel_invariant accounts_outbound accounts_inbound
    (fun _ _ _ _ _ _ _ _ _ _ h hm => h.move hm) run

end Session

end Qtalk.Mux
