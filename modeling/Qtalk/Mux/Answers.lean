import Qtalk.Codec.Encoder
import Qtalk.Mux.Served

/-!
# What the loop answers

Three packets make the loop write one: an OpenMessage is confirmed or refused, a
CloseMessage is answered by one. `owed` is the size of the answer that the loop is about to
hand to the encoder. `Plans` keeps where the answers stand among the operations in hand: in
front, and the confirmation behind `publish`.
-/

namespace Qtalk.Mux
open Qtalk.Codec Qtalk.Lib

/-- How many bytes `Encode` writes for a message. -/
def bytes (m : Message) : Nat := (marshal m).length

theorem bytes_openConfirm (m : OpenConfirmMessage) : bytes (.openConfirm m) = 17 := rfl

theorem bytes_openFailure (m : OpenFailureMessage) : bytes (.openFailure m) = 5 := rfl

theorem bytes_close (m : CloseMessage) : bytes (.close m) = 5 := rfl

theorem bytes_eof (m : EOFMessage) : bytes (.eof m) = 5 := rfl

theorem bytes_windowAdjust (m : WindowAdjustMessage) : bytes (.windowAdjust m) = 9 := rfl

theorem bytes_pos (m : Message) : 0 < bytes m := by
  rw [bytes, marshal_eq]
  exact Nat.succ_pos _

/-- The operation is none of those that answer an open or a close. -/
def LoopOp.plain : LoopOp → Bool
  | .publish _ | .confirm _ | .reject _ | .reply _ => false
  | _ => true

/-- Where answers may stand among the operations in hand. -/
def Planned : List LoopOp → Prop
  | [] => True
  | .publish c :: ops => ops = [.confirm c]
  | .confirm _ :: ops | .reject _ :: ops => ops = []
  | .reply c :: ops => ∃ id, ops = .remove id :: closeOps c
  | _ :: ops => ∀ op ∈ ops, op.plain = true

theorem planned_of_plain {ops : List LoopOp} (h : ∀ op ∈ ops, op.plain = true) : Planned ops := by
  cases ops with
  | nil => trivial
  | cons op ops =>
    have hop := h op List.mem_cons_self
    have htail : ∀ op' ∈ ops, op'.plain = true := fun op' hop' => h op' (List.mem_cons_of_mem op hop')
    cases op with
    | publish | confirm | reject | reply => cases hop
    | _ => exact htail

theorem closeOps_plain (c : Nat) : ∀ op ∈ closeOps c, op.plain = true := by
  simp [closeOps, LoopOp.plain]

theorem exitOps_plain (e : LoopError) : ∀ op ∈ exitOps e, op.plain = true := by
  simp [exitOps, LoopOp.plain]

/-- Only a confirmation is no plain operation and stands behind another one. -/
theorem Planned.tail {op : LoopOp} {ops : List LoopOp} (h : Planned (op :: ops))
    (hop : ∀ c, op ≠ .publish c) : ∀ op' ∈ ops, op'.plain = true := by
  have hnil : ops = [] → ∀ op' ∈ ops, op'.plain = true := by
    intro heq op' hop'
    rw [heq] at hop'
    cases hop'
  cases op with
  | publish c => exact absurd rfl (hop c)
  | confirm => exact hnil h
  | reject => exact hnil h
  | reply c =>
    obtain ⟨id, heq⟩ := h
    rw [heq, List.forall_mem_cons]
    exact ⟨rfl, closeOps_plain c⟩
  | _ => exact h

namespace Channel

/-- The step is one of `send`, which takes `writeMu`. -/
def Step.locks : Step → Bool
  | .sendAdjust _ | .sendEOF | .close => true
  | _ => false

/-- How many bytes it sends besides a CloseMessage. -/
def Step.size : Step → Nat
  | .sendAdjust _ => 9
  | .sendEOF => 5
  | _ => 0

/-- What a step of the application sends, and what becomes of `sentClose`. -/
inductive Sends (ch : Channel) (a : Step) (r : Channel × List Message) : Prop where
  | nothing (hm : r.2 = []) (hs : r.1.sentClose = ch.sentClose)
      (hc : a.locks = true → ch.sentClose = true)
  | data {m : Message} (hl : a.locks = false) (hm : r.2 = [m]) (hs : r.1.sentClose = ch.sentClose)
  | control {m : Message} (hl : a.locks = true) (hm : r.2 = [m]) (hb : bytes m = a.size)
      (hc : ch.sentClose = false) (hs : r.1.sentClose = false)
  | close {m : Message} (ha : a = .close) (hm : r.2 = [m]) (hb : bytes m = 5)
      (hc : ch.sentClose = false) (hs : r.1.sentClose = true)

theorem send_eq {m : Message} (ch : Channel) (hm : ∀ m', m ≠ .close m') :
    ch.send m = (ch, if ch.sentClose then [] else [m]) := by
  cases m with
  | close m' => exact absurd rfl (hm m')
  | _ =>
    unfold send
    split <;> rfl

theorem Sends.of_send {ch ch' : Channel} {a : Step} {m : Message} (hl : a.locks = true)
    (hs : ch'.sentClose = ch.sentClose) (hm : ∀ m', m ≠ .close m') (hb : bytes m = a.size) :
    Sends ch a (ch'.send m) := by
  rw [send_eq ch' hm, hs]
  cases hc : ch.sentClose with
  | true => exact .nothing rfl hs fun _ => hc
  | false => exact .control hl rfl hb hc (hs.trans hc)

theorem Sends.of_step {ch : Channel} {a : Step} {r : Channel × List Message} (h : ch.step a = some r) :
    Sends ch a r := by
  cases a with
  | sendAdjust k =>
    simp only [step, Channel.sendAdjust, bind, Option.bind_eq_some_iff] at h
    obtain ⟨o, hk, h⟩ := h
    cases o with
    | took n => cases h
    | credited n =>
      cases h
      exact Sends.of_send rfl rfl (by simp) (bytes_windowAdjust _)
  | sendEOF =>
    simp only [step, Channel.sendEOF] at h
    split at h
    · cases h
    · cases h
      exact Sends.of_send rfl rfl (by simp) (bytes_eof _)
  | close =>
    simp only [step] at h
    split at h
    · cases h
      rcases ch.Close_eq with ⟨hs, h⟩ | ⟨hs, h⟩
      · rw [h]
        exact .nothing rfl rfl fun _ => hs
      · rw [h]
        exact .close rfl rfl (bytes_close _) hs rfl
    · cases h
  | sendOpen ok =>
    obtain ⟨ch', ms⟩ := r
    cases Move.of_step h with
    | idle => exact .nothing rfl rfl (by simp [Step.locks])
    | sendOpen => exact .data rfl rfl rfl
  | sendData k ok =>
    obtain ⟨ch', ms⟩ := r
    cases Move.of_step h with
    | idle => exact .nothing rfl rfl (by simp [Step.locks])
    | sendData | sendFailed => exact .data rfl rfl rfl
  | _ =>
    obtain ⟨ch', ms⟩ := r
    cases Move.of_step h <;> exact .nothing rfl rfl (by simp [Step.locks])

end Channel

namespace Session

variable {s s' : Session}

/-- The steps on a connection that nobody closes, a packet of the peer apart: the writes
succeed. -/
def Act.sound : Act → Bool
  | .recv _ | .close => false
  | .call _ (.sendOpen ok) | .call _ (.sendData _ ok) | .loop ok => ok
  | _ => true

/-- The step is one of the session loop. -/
def Act.isLoop : Act → Bool
  | .loop _ => true
  | _ => false

/-- The channel whose `writeMu` a step takes. -/
def needs (s : Session) : Act → Option Nat
  | .call c a => if a.locks then some c else none
  | .loop _ =>
    match s.ops with
    | .reply c :: _ | .markClosed c :: _ => some c
    | _ => none
  | _ => none

/-- The answers among the operations in hand stand in front, and none is left when the loop
ends. -/
structure Plans (s : Session) : Prop where
  shape : Planned s.ops
  stopped : s.running = false → ∀ op ∈ s.ops, op.plain = true

theorem Plans.start : newSession.Plans := ⟨trivial, nofun⟩

theorem Plans.exit (s : Session) (e : LoopError) : (s.exit e).Plans :=
  ⟨planned_of_plain (exitOps_plain e), fun _ => exitOps_plain e⟩

theorem Plans.same (h : s.Plans) (ho : s'.ops = s.ops) (hr : s'.running = s.running) : s'.Plans :=
  ⟨ho ▸ h.shape, fun hs => ho ▸ h.stopped (hr ▸ hs)⟩

/-- The loop takes up operations that are in place. -/
theorem Plans.take (hp : Planned s'.ops) (hr : s'.running = true) : s'.Plans :=
  ⟨hp, fun hs => absurd (hr.symm.trans hs) nofun⟩

/-- The loop does an operation. -/
theorem Plans.pop (h : s.Plans) {op : LoopOp} {ops : List LoopOp} (ho : s.ops = op :: ops)
    (hop : ∀ c, op ≠ .publish c) (ho' : s'.ops = ops) : s'.Plans := by
  have hshape := h.shape
  rw [ho] at hshape
  have hplain := hshape.tail hop
  rw [← ho'] at hplain
  exact ⟨planned_of_plain hplain, fun _ => hplain⟩

theorem Plans.step (h : s.Plans) {a : Act} {out : List Packet} (ht : Trans s a s' out) : s'.Plans := by
  cases ht with
  | register | call | accept | acceptEOF | close | outOfRange => exact h.same rfl rfl
  | undecoded | unknown | refuse | confirmFailed | rejectFailed => exact Plans.exit _ _
  | @handle m c ch ops hr ho hf hm hg hh =>
    refine Plans.take ?_ hr
    obtain ⟨-, -, -, hops⟩ := Channel.handle_ops hh
    rcases hops with rfl | ⟨m', -, rfl⟩ | ⟨m', -, rfl⟩ | ⟨m', -, rfl⟩
    · trivial
    · exact ⟨_, rfl⟩
    · exact planned_of_plain (by simp [LoopOp.plain])
    · exact planned_of_plain (by simp [LoopOp.plain])
  | rejectOpen hr ho hm => exact ⟨rfl, fun hs => absurd (hr.symm.trans hs) nofun⟩
  | handleOpen hr ho hm hl => exact ⟨rfl, fun hs => absurd (hr.symm.trans hs) nofun⟩
  | publish ok ho hi =>
    have hshape := h.shape
    rw [ho] at hshape
    refine ⟨?_, fun hs => ?_⟩
    · show Planned _
      rw [show _ = _ from hshape]
      rfl
    · have hplain := h.stopped hs
      rw [ho] at hplain
      exact absurd (hplain _ List.mem_cons_self) nofun
  | @dropAll ops ok ho =>
    have hshape := h.shape
    rw [ho] at hshape
    have hplain : ∀ op ∈ s.chanList.dropAll.flatMap closeOps ++ ops, op.plain = true := by
      intro op hop
      rcases List.mem_append.mp hop with hop | hop
      · obtain ⟨c, -, hop⟩ := List.mem_flatMap.mp hop
        exact closeOps_plain c op hop
      · exact hshape op hop
    exact ⟨planned_of_plain hplain, fun _ => hplain⟩
  | confirm ho | reject ho => exact h.pop ho nofun rfl
  | queue ok ho | queueClosed ok ho | reply ok ho | remove ok ho | eof ok ho | closeMsg ok ho
  | closeMsgTwice ok ho | markClosed ok ho | closeWin ok ho | connClose ok ho | signal ok ho
  | setErr ok ho => exact h.pop ho nofun rfl

/-- The bytes of the answer that is the next operation. -/
def owed (s : Session) : List LoopOp → Nat
  | .confirm c :: _ => bytes (s.heap c).confirmMessage
  | .reject id :: _ => bytes (.openFailure ⟨id⟩)
  | .reply c :: _ => ((s.heap c).Close.2.map bytes).sum
  | _ => 0

theorem owed_reply (s : Session) (c : Nat) (ops : List LoopOp) :
    s.owed (.reply c :: ops) = if (s.heap c).sentClose then 0 else 5 := by
  rcases (s.heap c).Close_eq with ⟨hs, h⟩ | ⟨hs, h⟩
  · simp [owed, h, hs]
  · simp [owed, h, hs, bytes_close]

theorem owed_plain (s : Session) {ops : List LoopOp} (h : ∀ op ∈ ops, op.plain = true) :
    s.owed ops = 0 := by
  cases ops with
  | nil => rfl
  | cons op ops =>
    have hop := h op List.mem_cons_self
    cases op with
    | publish | confirm | reject | reply => cases hop
    | _ => rfl

/-- What is owed depends on `sentClose` only. -/
theorem owed_congr {ops : List LoopOp}
    (h : ∀ c rest, ops = .reply c :: rest → (s'.heap c).sentClose = (s.heap c).sentClose) :
    s'.owed ops = s.owed ops := by
  cases ops with
  | nil => rfl
  | cons op rest =>
    cases op with
    | reply c => rw [owed_reply, owed_reply, h c rest rfl]
    | _ => rfl

/-- The steps of the application leave the loop alone. -/
theorem Trans.app_frame {a : Act} {out : List Packet} (ht : Trans s a s' out)
    (hr : ∀ r, a ≠ .recv r) (hl : ∀ ok, a ≠ .loop ok) : s'.ops = s.ops ∧ s'.running = s.running := by
  cases ht with
  | register | call | accept | acceptEOF | close => exact ⟨rfl, rfl⟩
  | outOfRange | undecoded | unknown | refuse | handle | rejectOpen | handleOpen =>
    exact absurd rfl (hr _)
  | _ => exact absurd rfl (hl _)

/-- What a step of the application hands to the encoder, and what becomes of `sentClose`. -/
inductive Calls (s s' : Session) (a : Act) (out : List Packet) : Prop where
  | nothing (hout : out = []) (hs : ∀ c < s.fresh, (s'.heap c).sentClose = (s.heap c).sentClose)
      (hc : ∀ c b, a = .call c b → b.locks = true → (s.heap c).sentClose = true)
  | data {p : Packet} (hout : out = [p]) (hn : s.needs a = none)
      (hl : ∀ c b, a = .call c b → b.locks = false)
      (hs : ∀ c < s.fresh, (s'.heap c).sentClose = (s.heap c).sentClose)
  | control {c : Nat} {b : Channel.Step} {p : Packet} (ha : a = .call c b) (hl : b.locks = true)
      (hout : out = [p]) (hb : bytes p.msg = b.size) (hc : (s.heap c).sentClose = false)
      (hs : ∀ c < s.fresh, (s'.heap c).sentClose = (s.heap c).sentClose)
  | close {c : Nat} {p : Packet} (ha : a = .call c .close) (hout : out = [p]) (hb : bytes p.msg = 5)
      (hc : (s.heap c).sentClose = false) (hc' : (s'.heap c).sentClose = true)
      (hs : ∀ c' ≠ c, (s'.heap c').sentClose = (s.heap c').sentClose)

theorem Calls.of_trans {a : Act} {out : List Packet} (ht : Trans s a s' out)
    (hr : ∀ r, a ≠ .recv r) (hl : ∀ ok, a ≠ .loop ok) : Calls s s' a out := by
  cases ht with
  | register hlen =>
    refine .nothing rfl (fun c hc => ?_) nofun
    rw [added_old s outboundChannel hc]
  | @accept c incoming h =>
    refine .nothing rfl (fun c' _ => ?_) nofun
    by_cases heq : c' = c
    · rw [heq]
      simp
    · simp [heq]
  | acceptEOF | close => exact .nothing rfl (fun _ _ => rfl) nofun
  | @call c b r hc hstep =>
    have hother : ∀ c' ≠ c, ((s.emit c r).1.heap c').sentClose = (s.heap c').sentClose := by
      intro c' hne
      simp [hne]
    have hsame : r.1.sentClose = (s.heap c).sentClose →
        ∀ c' < s.fresh, ((s.emit c r).1.heap c').sentClose = (s.heap c').sentClose := by
      intro hs c' _
      by_cases heq : c' = c
      · rw [heq]
        simpa [Channel.sends] using hs
      · exact hother c' heq
    cases Channel.Sends.of_step hstep with
    | nothing hm hs hc =>
      refine .nothing (by simp [emit, hm]) (hsame hs) fun c' b' ha hb' => ?_
      cases ha
      exact hc hb'
    | @data m hb hm hs =>
      refine .data (p := ⟨some c, m⟩) (by simp [emit, hm]) (by simp [needs, hb]) (fun c' b' ha => ?_)
        (hsame hs)
      cases ha
      exact hb
    | @control m hb hm hsize hc hs =>
      exact .control (p := ⟨some c, m⟩) rfl hb (by simp [emit, hm]) hsize hc (hsame (hs.trans hc.symm))
    | @close m ha hm hsize hc hs =>
      subst ha
      exact .close (p := ⟨some c, m⟩) rfl (by simp [emit, hm]) hsize hc (by simpa [Channel.sends] using hs)
        hother
  | outOfRange | undecoded | unknown | refuse | handle | rejectOpen | handleOpen =>
    exact absurd rfl (hr _)
  | _ => exact absurd rfl (hl _)

/-- What the loop hands to the encoder with one operation: nothing, or the answer it owes. -/
inductive HandsOver (s s' : Session) (out : List Packet) : Prop where
  | published {c : Nat} (hout : out = []) (ho : s.ops = [.publish c, .confirm c])
      (ho' : s'.ops = [.confirm c]) (hh : s'.heap = s.heap)
  | nothing (hout : out = []) (hn : s.owed s.ops = 0) (hp : ∀ c ops, s.ops ≠ .publish c :: ops)
      (ho' : ∀ op ∈ s'.ops, op.plain = true)
  | answer {p : Packet} (hout : out = [p]) (hb : bytes p.msg = s.owed s.ops) (hr : s'.running = true)
      (hp : ∀ c ops, s.ops ≠ .publish c :: ops)
      (ho' : (s'.ops = [] ∧ ∀ c ops, s.ops ≠ .reply c :: ops) ∨
        ∃ c id, s.ops = .reply c :: .remove id :: closeOps c ∧ s'.ops = .remove id :: closeOps c)

theorem Plans.running (h : s.Plans) {op : LoopOp} {ops : List LoopOp} (ho : s.ops = op :: ops)
    (hop : op.plain = false) : s.running = true := by
  cases hr : s.running with
  | true => rfl
  | false =>
    have hplain := h.stopped hr op (by rw [ho]; exact List.mem_cons_self)
    exact absurd (hplain.symm.trans hop) nofun

theorem Plans.handsOver (h : s.Plans) {out : List Packet} (ht : Trans s (.loop true) s' out) :
    HandsOver s s' out := by
  have hshape := h.shape
  cases ht with
  | publish ok ho hi =>
    rw [ho] at hshape
    exact .published rfl (ho.trans (congrArg _ hshape)) hshape rfl
  | confirm ho =>
    rw [ho] at hshape
    exact .answer rfl (by rw [ho]; rfl) (h.running ho rfl) (by rw [ho]; nofun)
      (.inl ⟨hshape, by rw [ho]; nofun⟩)
  | reject ho =>
    rw [ho] at hshape
    exact .answer rfl (by rw [ho]; rfl) (h.running ho rfl) (by rw [ho]; nofun)
      (.inl ⟨hshape, by rw [ho]; nofun⟩)
  | @reply c ops ok ho =>
    rw [ho] at hshape
    obtain ⟨id, rfl⟩ := hshape
    rcases (s.heap c).Close_eq with ⟨hs, hc⟩ | ⟨hs, hc⟩
    · refine .nothing (by simp [emit, hc]) ?_ (by rw [ho]; nofun) ?_
      · rw [ho, owed_reply, if_pos hs]
      · exact List.forall_mem_cons.mpr ⟨rfl, closeOps_plain c⟩
    · refine .answer (p := ⟨some c, .close ⟨(s.heap c).remoteId⟩⟩) (by simp [emit, hc]) ?_
        (h.running ho rfl) (by rw [ho]; nofun) (.inr ⟨c, id, ho, rfl⟩)
      rw [ho, owed_reply, if_neg (by simp [hs])]
      exact bytes_close _
  | @dropAll ops ok ho =>
    rw [ho] at hshape
    refine .nothing rfl (by rw [ho]; rfl) (by rw [ho]; nofun) fun op hop => ?_
    rcases List.mem_append.mp hop with hop | hop
    · obtain ⟨c, -, hop⟩ := List.mem_flatMap.mp hop
      exact closeOps_plain c op hop
    · exact hshape op hop
  | queue ok ho | queueClosed ok ho | remove ok ho | eof ok ho | closeMsg ok ho | closeMsgTwice ok ho
  | markClosed ok ho | closeWin ok ho | connClose ok ho | signal ok ho | setErr ok ho =>
    rw [ho] at hshape
    exact .nothing rfl (by rw [ho]; rfl) (by rw [ho]; nofun) (hshape.tail nofun)

/-- One step hands over one packet at most. -/
theorem Plans.out_length (h : s.Plans) {a : Act} {out : List Packet}
    (ht : Trans s a s' out) (ha : a.sound = true) : out.length ≤ 1 := by
  cases a with
  | register | accept | acceptEOF => cases ht; exact Nat.zero_le 1
  | recv | close => cases ha
  | call c a =>
    cases ht with
    | call hc hstep =>
      cases Channel.Sends.of_step hstep with
      | nothing hm | data _ hm | control _ hm | close _ hm => simp [emit, hm]
  | loop ok =>
    obtain rfl : ok = true := ha
    cases h.handsOver ht with
    | published hout | nothing hout | answer hout => simp [hout]

/-- The loop can do an operation that neither publishes nor queues, while no connection is
closed. -/
theorem loop_step {op : LoopOp} {ops : List LoopOp} (ho : s.ops = op :: ops)
    (hp : ∀ c, op ≠ .publish c) (hq : ∀ c m, op ≠ .queue c m) (hf : s.fault = none)
    (hc : s.connClosed = false) : ∃ r, s.step (.loop true) = some r := by
  have hstep : s.step (.loop true) = { s with ops }.runOp true op := by
    simp [Session.step, loopStep, hf, hc, ho]
  rw [hstep]
  cases op with
  | publish c => exact absurd rfl (hp c)
  | queue c m => exact absurd rfl (hq c m)
  | closeMsg c =>
    simp only [runOp]
    split
    · exact ⟨_, rfl⟩
    · exact ⟨_, rfl⟩
  | _ => exact ⟨_, rfl⟩

/-- The operation is done. -/
theorem Trans.pops {op : LoopOp} {ops : List LoopOp} {out : List Packet}
    (ht : Trans s (.loop true) s' out) (ho : s.ops = op :: ops) (hd : op ≠ .dropAll) :
    s'.ops = ops ∧ s'.running = s.running := by
  cases ht with
  | dropAll ok ho' =>
    rw [ho] at ho'
    cases ho'
    exact absurd rfl hd
  | confirm ho' | reject ho' | publish ok ho' | queue ok ho' | queueClosed ok ho' | reply ok ho'
  | remove ok ho' | eof ok ho' | closeMsg ok ho' | closeMsgTwice ok ho' | markClosed ok ho'
  | closeWin ok ho' | connClose ok ho' | signal ok ho' | setErr ok ho' =>
    rw [ho] at ho'
    cases ho'
    exact ⟨rfl, rfl⟩

/-- Only `Close`, and the loop on its way out, close the connection. -/
theorem Trans.connClosed {a : Act} {out : List Packet} (ht : Trans s a s' out) (ha : a ≠ .close)
    (ho : a.isLoop = true → s.ops.head? ≠ some .connClose) : s'.connClosed = s.connClosed := by
  cases ht with
  | close => exact absurd rfl ha
  | connClose ok ho' => exact absurd (by rw [ho']; rfl) (ho rfl)
  | _ => rfl

/-- The operations by which a packet makes the loop answer. -/
def takes (s : Session) : Message → List LoopOp
  | .openMsg m =>
    if m.maxPacketSize < minPacketLength ∨ m.maxPacketSize > maxPacketLength then [.reject m.senderID]
    else []
  | .close m => ((s.chanList.getChan m.channelID).map LoopOp.reply).toList
  | _ => []

/-- What the loop takes up with a packet: an answer, or nothing that is one yet. -/
inductive Takes (s s' : Session) (m : Message) : Prop where
  | nothing (ht : s.takes m = []) (ho : s'.owed s'.ops = 0) (hr : ∀ c ops, s'.ops ≠ .reply c :: ops)
  | reject {id : UInt32} (ht : s.takes m = [.reject id]) (ho : s'.ops = [.reject id])
  | reply {c : Nat} {ops : List LoopOp} (ht : s.takes m = [.reply c]) (ho : s'.ops = .reply c :: ops)
      (hs : (s'.heap c).sentClose = (s.heap c).sentClose)

theorem Trans.takes {m : Message} {out : List Packet} (ht : Trans s (.recv (.ok m)) s' out) :
    Takes s s' m := by
  cases ht with
  | unknown hr ho hm hg =>
    refine .nothing ?_ rfl nofun
    cases m with
    | openMsg m => cases hm
    | close m =>
      have hg : s.chanList.getChan m.channelID = none := hg
      simp [Session.takes, hg]
    | _ => rfl
  | refuse hr ho hm hg hh =>
    refine .nothing ?_ rfl nofun
    cases m with
    | openMsg m => cases hm
    | close m => cases hh
    | _ => rfl
  | @handle m c ch ops hr ho hf hm hg hh =>
    obtain ⟨-, -, -, hops⟩ := Channel.handle_ops hh
    cases m with
    | close m =>
      cases hh
      have hg : s.chanList.getChan m.channelID = some c := hg
      exact .reply (by simp [Session.takes, hg]) rfl (by simp)
    | openMsg m => cases hh
    | _ =>
      rcases hops with rfl | ⟨m', hm', -⟩ | ⟨m', -, rfl⟩ | ⟨m', -, rfl⟩
      · exact .nothing rfl rfl nofun
      · cases hm'
      · exact .nothing rfl rfl nofun
      · exact .nothing rfl rfl nofun
  | rejectOpen hr ho hm => exact .reject (if_pos hm) rfl
  | handleOpen hr ho hm hl => exact .nothing (if_neg hm) rfl nofun

end Session

end Qtalk.Mux
