import Qtalk.Mux.Answers
import Qtalk.Mux.Opening

/-!
# The life of a channel

A channel is closed by a `CloseMessage` in each direction. `Work` says once what each step
does to the operations in hand and to the channel list; from it follows `Life`, which says
for every channel how far its end has come: who has sent and handled the `CloseMessage`, what
the loop still has to do, and what has become of its id, its buffer and its window.
-/

namespace Qtalk.Mux
open Qtalk.Codec Qtalk.Lib

namespace Channel

/-- What closes stays closed. -/
theorem Move.stays {ch ch' : Channel} {who : Actor} {ms : List Message} (h : Move ch who ms ch') :
    (ch.pending.closed = true → ch'.pending.closed = true) ∧
      (ch.remoteWin.closed = true → ch'.remoteWin.closed = true) ∧
      (ch.msgClosed = true → ch'.msgClosed = true) := by
  cases h with
  | readNone hh hr | read hh hr =>
    have hcl := (Buffer.Read_bytes hr).2.2
    exact ⟨fun h => hcl.trans h, id, id⟩
  | refused hk hg hr hd | granted hk hg hr hd =>
    have hcl := (Window.reserve_eq_some hr).2.2.2
    exact ⟨id, fun h => hcl.trans h, id⟩
  | gotAdjust ha | gotConfirm hd ha =>
    have hcl := (Window.add_eq_some ha).2
    exact ⟨id, fun h => hcl.trans h, id⟩
  | eof | gotEOF => exact ⟨fun _ => rfl, id, id⟩
  | closeWin => exact ⟨id, fun _ => rfl, id⟩
  | closeMsg => exact ⟨id, id, fun _ => rfl⟩
  | _ => exact ⟨id, id, id⟩

/-- Who marks a channel closed. -/
theorem Move.marks {ch ch' : Channel} {who : Actor} {ms : List Message} (h : Move ch who ms ch')
    (hs : ch'.sentClose = true) : ch.sentClose = true ∨ ms.any Message.isClose = true ∨
      ∃ c, who = .op (.markClosed c) := by
  cases h with
  | close | reply => exact .inr (.inl rfl)
  | markClosed c => exact .inr (.inr ⟨c, rfl⟩)
  | _ => exact .inl hs

/-- At most one `CloseMessage`, and none while `sentClose` is not set. -/
theorem Move.closesOnce {ch ch' : Channel} {who : Actor} {ms : List Message} (h : Move ch who ms ch')
    (hone : ch.sent.countP Message.isClose ≤ 1)
    (hno : ch.sentClose = false → ch.sent.any Message.isClose = false) :
    (ch'.sends ms).sent.countP Message.isClose ≤ 1 := by
  have hzero : ch.sentClose = false → ch.sent.countP Message.isClose = 0 := by
    intro hs
    rw [List.countP_eq_zero]
    exact any_false (hno hs)
  have hsent := h.sent_eq
  have hms : ms.countP Message.isClose = 0 ∨ (ch.sentClose = false ∧ ms.countP Message.isClose = 1) := by
    cases h with
    | close hs | reply _ hs => exact .inr ⟨hs, rfl⟩
    | _ => exact .inl rfl
  rw [sends, hsent, List.countP_append]
  rcases hms with h0 | ⟨hs, h1⟩
  · omega
  · have := hzero hs
    omega

end Channel

namespace Session

variable {s s' : Session} {a : Act} {out : List Packet} {c : Nat}

/-- The channel stands in the list at its id. -/
def Listed (s : Session) (c : Nat) : Prop :=
  ChanList.slot s.chanList (s.heap c).localId.toNat = some c

instance (s : Session) (c : Nat) : Decidable (s.Listed c) := by unfold Listed; infer_instance

/-! ## What a step does to the loop's work -/

/-- What an operation of the loop brings about. -/
def Done (s s' : Session) : LoopOp → Prop
  | .reply c => (s'.heap c).sent.any Message.isClose = true ∨ (s.heap c).sentClose = true
  | .eof c => (s'.heap c).pending.closed = true
  | .closeMsg c => (s'.heap c).msgClosed = true
  | .closeWin c => (s'.heap c).remoteWin.closed = true
  | .queue c _ => (s'.heap c).msg ≠ []
  | _ => True

/-- A step, by what it does to the operations in hand and to the channel list. -/
inductive Work (s s' : Session) : Act → Prop where
  /-- a step of the application, or a panic in the decoder -/
  | app {a : Act} (hby : ∀ c who, By s c a who → (∃ b, who = .call b) ∨ who = .accept)
      (hf : s'.fresh = s.fresh) (hl : s'.chanList = s.chanList) (ho : s'.ops = s.ops)
      (hr : s'.running = s.running) : Work s s' a
  | register (hl : s.chanList.length + 1 < 2 ^ 32) (hs : s' = s.added outboundChannel) :
      Work s s' .register
  /-- the loop ends -/
  | exit {a : Act} {e : LoopError} (hn : ∀ op ∈ s.ops, op.plain = false ∧ ∀ c, op ≠ .reply c)
      (ha : ∀ m, a = .recv (.ok m) → s'.heap = s.heap) (hrun : s.running = true)
      (hf : s'.fresh = s.fresh) (hl : s'.chanList = s.chanList) (ho : s'.ops = exitOps e)
      (hr : s'.running = false) : Work s s' a
  /-- a message is handed to a channel -/
  | take {m : Message} {c : Nat} {ch : Channel} {ops : List LoopOp} (hrun : s.running = true)
      (hnil : s.ops = []) (hm : m.channel.2 = true) (hg : s.chanList.getChan m.channel.1 = some c)
      (hh : (s.heap c).handle c m = .ok (ch, ops))
      (hs : s' = { s.put c { ch with handled := ch.handled ++ [m] } with ops }) :
      Work s s' (.recv (.ok m))
  | rejectOpen {m : OpenMessage} (hnil : s.ops = []) (hrun : s.running = true)
      (hs : s' = { s with ops := [.reject m.senderID] }) : Work s s' (.recv (.ok (.openMsg m)))
  | handleOpen {m : OpenMessage} (hnil : s.ops = []) (hrun : s.running = true)
      (hl : s.chanList.length + 1 < 2 ^ 32)
      (hs : s' = { s.added (inboundChannel m) with ops := [.publish s.fresh, .confirm s.fresh] }) :
      Work s s' (.recv (.ok (.openMsg m)))
  /-- the loop does an operation -/
  | pop {op : LoopOp} {ok : Bool} (ho : s.ops = op :: s'.ops) (hd : op ≠ .dropAll)
      (hdone : Done s s' op) (hf : s'.fresh = s.fresh)
      (hl : s'.chanList = s.chanList ∨ ∃ id, op = .remove id ∧ s'.chanList = s.chanList.remove id)
      (hr : s'.running = s.running) : Work s s' (.loop ok)
  | dropAll {ops : List LoopOp} {ok : Bool} (ho : s.ops = .dropAll :: ops)
      (hs : s' = { s with chanList := [], ops := s.chanList.dropAll.flatMap closeOps ++ ops }) :
      Work s s' (.loop ok)

/-- Nothing but an answer to an open is in hand. -/
theorem not_in_hand {op : LoopOp} (hn : ∀ op ∈ s.ops, op.plain = false ∧ ∀ c, op ≠ .reply c)
    (hop : op.plain = true ∨ ∃ c, op = .reply c) : op ∉ s.ops := by
  intro hin
  obtain ⟨hp, hr⟩ := hn op hin
  rcases hop with hop | ⟨c, hop⟩
  · rw [hop] at hp
    cases hp
  · exact hr c hop

/-- An operation in hand is still in hand after a step that does another one. -/
theorem mem_tail {op op' : LoopOp} {ops : List LoopOp} (ho : s.ops = op :: ops) (hin : op' ∈ s.ops) :
    op = op' ∨ op' ∈ ops := by
  rw [ho, List.mem_cons] at hin
  exact hin.imp_left Eq.symm

/-- What is in hand stays there until it is done. -/
theorem Work.inHand (h : Work s s' a) {op : LoopOp} (hin : op ∈ s.ops)
    (hop : op.plain = true ∨ ∃ c, op = .reply c) (hd : op ≠ .dropAll) :
    op ∈ s'.ops ∨ (s.ops = op :: s'.ops ∧ Done s s' op) := by
  have hnone : s.ops ≠ [] := List.ne_nil_of_mem hin
  cases h with
  | app _ _ _ ho => exact .inl (ho ▸ hin)
  | register _ hs => exact .inl (hs ▸ hin)
  | exit hn => exact absurd hin (not_in_hand hn hop)
  | take _ hnil | rejectOpen hnil | handleOpen hnil => exact absurd hnil hnone
  | pop ho _ hdone =>
    rcases mem_tail ho hin with rfl | hin
    · exact .inr ⟨ho, hdone⟩
    · exact .inl hin
  | dropAll ho hs =>
    have htail := (mem_tail ho hin).resolve_left (Ne.symm hd)
    rw [hs]
    exact .inl (List.mem_append_right _ htail)

theorem Inv.work (h : s.Inv) (hp : s.Plans) (ht : Trans s a s' out) : Work s s' a := by
  have hempty : s.ops = [] → ∀ op ∈ s.ops, op.plain = false ∧ ∀ c, op ≠ .reply c := by
    intro ho op hop
    rw [ho] at hop
    cases hop
  have hlast : ∀ op ops, s.ops = op :: ops → (∀ op', ¬ Before op op') → op.plain = false →
      (∀ c, op ≠ .reply c) → ∀ op ∈ s.ops, op.plain = false ∧ ∀ c, op ≠ .reply c := by
    intro op ops ho hb hop hr op' hop'
    rw [ho, h.alone ho hb, List.mem_singleton] at hop'
    rw [hop']
    exact ⟨hop, hr⟩
  cases ht with
  | register hl => exact .register hl rfl
  | call hc hstep =>
    refine .app (fun c who hby => ?_) rfl rfl rfl rfl
    cases hby
    exact .inl ⟨_, rfl⟩
  | accept hin =>
    refine .app (fun c who hby => ?_) rfl rfl rfl rfl
    cases hby
    exact .inr rfl
  | acceptEOF | close | outOfRange =>
    refine .app (fun c who hby => ?_) rfl rfl rfl rfl
    cases hby
  | undecoded hr ho => exact .exit (hempty ho) (fun m hm => by cases hm) hr rfl rfl rfl rfl
  | unknown hr ho => exact .exit (hempty ho) (fun _ _ => rfl) hr rfl rfl rfl rfl
  | refuse hr ho => exact .exit (hempty ho) (fun _ _ => rfl) hr rfl rfl rfl rfl
  | handle hr ho hf hm hg hh => exact .take hr ho hm hg hh rfl
  | rejectOpen hr ho hm => exact .rejectOpen ho hr rfl
  | handleOpen hr ho hm hl => exact .handleOpen ho hr hl rfl
  | confirmFailed ho =>
    exact .exit (hlast _ _ ho (fun _ hb => hb) rfl (by simp)) (fun m hm => by cases hm)
      (hp.running ho rfl) rfl rfl rfl rfl
  | rejectFailed ho =>
    exact .exit (hlast _ _ ho (fun _ hb => hb) rfl (by simp)) (fun m hm => by cases hm)
      (hp.running ho rfl) rfl rfl rfl rfl
  | dropAll ok ho => exact .dropAll ho rfl
  | @remove id ops ok ho => exact .pop ho (by simp) trivial rfl (.inr ⟨id, rfl, rfl⟩) rfl
  | @queueClosed c m ops ok ho hc => simp [(h.ops (.queue c m) (by simp [ho])).2.2] at hc
  | @closeMsgTwice c ops ok ho hc => simp [(h.ops (.closeMsg c) (by simp [ho])).2] at hc
  | @queue c m ops ok ho hc hq => exact .pop ho (by simp) (by simp [Done]) rfl (.inl rfl) rfl
  | @reply c ops ok ho =>
    refine .pop ho (by simp) ?_ rfl (.inl rfl) rfl
    rcases (s.heap c).Close_eq with ⟨hs, -⟩ | ⟨hs, hc⟩
    · exact .inr hs
    · left
      simp [hc, Channel.sends, Message.isClose]
  | eof ok ho => exact .pop ho (by simp) (by simp [Done, Buffer.eof]) rfl (.inl rfl) rfl
  | closeMsg ok ho hc => exact .pop ho (by simp) (by simp [Done]) rfl (.inl rfl) rfl
  | closeWin ok ho => exact .pop ho (by simp) (by simp [Done, Window.close]) rfl (.inl rfl) rfl
  | publish ok ho | confirm ho | reject ho | markClosed ok ho | connClose ok ho | signal ok ho
  | setErr ok ho => exact .pop ho (by simp) trivial rfl (.inl rfl) rfl

/-- A loop that has ended does not run again. -/
theorem Work.running (h : Work s s' a) (hr : s'.running = true) : s.running = true := by
  cases h with
  | app _ _ _ _ heq | pop _ _ _ _ _ heq => exact heq ▸ hr
  | register _ hs | dropAll _ hs =>
    subst hs
    exact hr
  | exit _ _ hrun | take hrun | rejectOpen _ hrun | handleOpen _ hrun => exact hrun

theorem added_listed {mk : UInt32 → Channel} (hl : s.chanList.length + 1 < 2 ^ 32) (hc : c < s.fresh)
    {ops : List LoopOp} : Listed { s.added mk with ops } c ↔ s.Listed c := by
  show ChanList.slot (s.added mk).chanList ((s.added mk).heap c).localId.toNat = some c ↔ _
  rw [added_old s mk hc, added_slot mk hl, Listed]
  split
  · next heq =>
    rw [heq, (ChanList.slot_add s.fresh hl).1]
    constructor
    · intro h
      exact absurd (Option.some.inj h) (Nat.ne_of_gt hc)
    · intro h
      cases h
  · exact .rfl

/-! ## How far the end of a channel has come -/

/-- `close()` of a channel has run, or what is left of it is in hand. -/
structure Wound (s : Session) (c : Nat) : Prop where
  eof : .eof c ∈ s.ops ∨ (s.heap c).pending.closed = true
  msg : .closeMsg c ∈ s.ops ∨ (s.heap c).msgClosed = true
  win : .closeWin c ∈ s.ops ∨ (s.heap c).remoteWin.closed = true

theorem Wound.of_closeOps (h : ∀ op ∈ closeOps c, op ∈ s.ops) : s.Wound c := by
  rw [forall_closeOps] at h
  exact ⟨.inl h.1, .inl h.2.1, .inl h.2.2.2⟩

structure Life (s : Session) (c : Nat) : Prop where
  /-- who has handled a `CloseMessage` sends one -/
  answered : (s.heap c).handled.any Message.isClose = true →
    .reply c ∈ s.ops ∨ (s.heap c).sent.any Message.isClose = true
  replying : .reply c ∈ s.ops → s.Listed c
  /-- while the loop runs only a `CloseMessage` brings `close()` about -/
  marked : s.running = true → .markClosed c ∈ s.ops →
    (s.heap c).handled.any Message.isClose = true
  flagged : s.running = true → (s.heap c).sentClose = true →
    (s.heap c).sent.any Message.isClose = true
  /-- then `close()` runs to its end -/
  closing : (s.heap c).handled.any Message.isClose = true → s.Wound c
  gone : ¬ s.Listed c → (s.heap c).ended = true ∨ (s.running = false ∧ .dropAll ∉ s.ops)
  wound : ¬ s.Listed c → (s.heap c).handled.any Message.isFailure = false → s.Wound c

/-- The loop cannot mark a channel closed whose `CloseMessage` it has yet to answer. -/
theorem Life.answered_first (h : s.Life c) (hp : s.Plans) {ops : List LoopOp}
    (ho : s.ops = .markClosed c :: ops) (hr : s.running = true) :
    (s.heap c).sent.any Message.isClose = true := by
  have hcl := h.marked hr (by rw [ho]; exact List.mem_cons_self)
  refine (h.answered hcl).resolve_left fun hin => ?_
  have hshape := hp.shape
  rw [ho] at hshape hin
  rcases List.mem_cons.mp hin with hin | hin
  · cases hin
  · cases hshape _ hin

/-- What no step takes back from a channel. -/
structure Kept (s s' : Session) (c : Nat) : Prop where
  sent : (s.heap c).sent.any Message.isClose = true → (s'.heap c).sent.any Message.isClose = true
  eof : (s.heap c).pending.closed = true → (s'.heap c).pending.closed = true
  msg : (s.heap c).msgClosed = true → (s'.heap c).msgClosed = true
  win : (s.heap c).remoteWin.closed = true → (s'.heap c).remoteWin.closed = true
  id : (s'.heap c).localId = (s.heap c).localId
  marked : (s'.heap c).sentClose = true → (s.heap c).sentClose = true ∨
    (s'.heap c).sent.any Message.isClose = true ∨ ∃ ops, s.ops = .markClosed c :: ops

theorem Changes.kept (h : Changes s s' a out c) : Kept s s' c := by
  have hext := h.extends
  cases h with
  | none hh _ =>
    rw [hh] at hext
    exact ⟨fun h => by rwa [hh], fun h => by rwa [hh], fun h => by rwa [hh], fun h => by rwa [hh],
      by rw [hh], fun h => .inl (by rwa [hh] at h)⟩
  | @move who ms ch hby hm hh _ =>
    obtain ⟨heof, hwin, hmsg⟩ := hm.stays
    refine ⟨hext.any_sent, fun h => ?_, fun h => ?_, fun h => ?_, hext.localId, fun h => ?_⟩
    · rw [hh]
      exact heof h
    · rw [hh]
      exact hmsg h
    · rw [hh]
      exact hwin h
    · rw [hh] at h ⊢
      rcases hm.marks h with h | h | ⟨c', rfl⟩
      · exact .inl h
      · right
        left
        rw [Channel.sends, List.any_append, h, Bool.or_true]
      · cases hby with
        | op ok ho hc =>
          cases hc
          exact .inr (.inr ⟨_, ho⟩)

/-- The fields of `Life` that only look at one channel and at what the loop has in hand. -/
theorem Life.keep (h : s.Life c) (hk : Kept s s' c) (hp : s.Plans) (hw : Work s s' a)
    (hh : (s'.heap c).handled = (s.heap c).handled) (hrun : s'.running = true → s.running = true)
    (hleft : s.Listed c → s'.Listed c ∨ (.reply c ∉ s'.ops ∧
      ((s.heap c).ended = true ∨ (s'.running = false ∧ .dropAll ∉ s'.ops ∧ s'.Wound c))))
    (hreply : .reply c ∈ s'.ops → .reply c ∈ s.ops)
    (hmark : s'.running = true → .markClosed c ∈ s'.ops → .markClosed c ∈ s.ops)
    (hdrop : s.running = false → .dropAll ∉ s.ops → s'.running = false ∧ .dropAll ∉ s'.ops) :
    s'.Life c := by
  have closes : s.Wound c → s'.Wound c := by
    intro h
    constructor
    · refine h.eof.elim (fun hin => ?_) fun h => .inr (hk.eof h)
      exact (hw.inHand hin (.inl rfl) (by simp)).imp_right fun h => h.2
    · refine h.msg.elim (fun hin => ?_) fun h => .inr (hk.msg h)
      exact (hw.inHand hin (.inl rfl) (by simp)).imp_right fun h => h.2
    · refine h.win.elim (fun hin => ?_) fun h => .inr (hk.win h)
      exact (hw.inHand hin (.inl rfl) (by simp)).imp_right fun h => h.2
  constructor
  case answered =>
    intro hc
    rw [hh] at hc
    rcases h.answered hc with hin | hs
    · rcases hw.inHand hin (.inr ⟨c, rfl⟩) (by simp) with hin | ⟨ho, hdone⟩
      · exact .inl hin
      · right
        rcases hdone with hs | hs
        · exact hs
        · exact hk.sent (h.flagged (hp.running ho rfl) hs)
    · exact .inr (hk.sent hs)
  case replying =>
    intro hin
    refine (hleft (h.replying (hreply hin))).resolve_right ?_
    rintro ⟨hnone, -⟩
    exact hnone hin
  case marked =>
    intro hr hin
    rw [hh]
    exact h.marked (hrun hr) (hmark hr hin)
  case flagged =>
    intro hr hs
    rcases hk.marked hs with hs | hs | ⟨ops, ho⟩
    · exact hk.sent (h.flagged (hrun hr) hs)
    · exact hs
    · exact hk.sent (h.answered_first hp ho (hrun hr))
  case closing =>
    intro hc
    rw [hh] at hc
    exact closes (h.closing hc)
  case gone =>
    intro hn
    rw [Channel.ended, hh]
    by_cases hl : s.Listed c
    · obtain ⟨-, hend | ⟨hr, hd, -⟩⟩ := (hleft hl).resolve_left hn
      · exact .inl hend
      · exact .inr ⟨hr, hd⟩
    · exact (h.gone hl).imp_right fun hd => hdrop hd.1 hd.2
  case wound =>
    intro hn hf
    rw [hh] at hf
    by_cases hl : s.Listed c
    · obtain ⟨-, hend | ⟨-, -, hw⟩⟩ := (hleft hl).resolve_left hn
      · rw [Channel.ended, hf, Bool.or_false] at hend
        exact closes (h.closing hend)
      · exact hw
    · exact closes (h.wound hl hf)

/-- The channels are dropped once. -/
theorem Inv.drops (hi : s.Inv) {ops : List LoopOp} (ho : s.ops = .dropAll :: ops) :
    .dropAll ∉ s.chanList.dropAll.flatMap closeOps ++ ops := by
  intro hin
  rcases List.mem_append.mp hin with hin | hin
  · obtain ⟨c', -, hin⟩ := List.mem_flatMap.mp hin
    simp [closeOps] at hin
  · have hord := hi.order
    rw [ho, List.pairwise_cons] at hord
    exact hord.1 _ hin

theorem mem_exitOps {op : LoopOp} {e : LoopError} (h : op ∈ exitOps e) (hop : op ≠ .dropAll)
    (hc : op ≠ .connClose) (hs : op ≠ .signal) : op = .setErr e := by
  simp only [exitOps, List.mem_cons, List.not_mem_nil, or_false] at h
  rcases h with h | h | h | h
  · exact absurd h hop
  · exact absurd h hc
  · exact absurd h hs
  · exact h

/-- A channel that is new. -/
theorem Life.new (hl : s.Listed c) (hops : ∀ op ∈ s.ops, op ≠ .reply c ∧ op ≠ .markClosed c)
    (hh : (s.heap c).handled.any Message.isClose = false) (hs : (s.heap c).sentClose = false) :
    s.Life c where
  answered h := by rw [hh] at h; cases h
  replying h := absurd rfl (hops _ h).1
  marked _ h := absurd rfl (hops _ h).2
  flagged _ h := by rw [hs] at h; cases h
  closing h := by rw [hh] at h; cases h
  gone h := absurd hl h
  wound h := absurd hl h

theorem Listed.new {mk : UInt32 → Channel} (hl : s.chanList.length + 1 < 2 ^ 32)
    (hid : ∀ id, (mk id).localId = id) : (s.added mk).Listed s.fresh := by
  rw [Listed, added_new, hid, added_slot mk hl, if_pos rfl]

/-- The loop does an operation. -/
theorem Life.pop (h : s.Life c) (hi : s.Inv) (hp : s.Plans) (hk : Kept s s' c)
    (hw : Work s s' a) (hh : (s'.heap c).handled = (s.heap c).handled) {op : LoopOp}
    (ho : s.ops = op :: s'.ops)
    (hl : s'.chanList = s.chanList ∨ ∃ id, op = .remove id ∧ s'.chanList = s.chanList.remove id)
    (hr : s'.running = s.running) : s'.Life c := by
  have hsub : ∀ op' ∈ s'.ops, op' ∈ s.ops := by
    intro op' hin
    rw [ho]
    exact List.mem_cons_of_mem _ hin
  refine h.keep hk hp hw hh (fun h => hr ▸ h) (fun hin => ?_) (hsub _) (fun _ => hsub _)
    (fun h hd => ⟨hr.trans h, fun hin => hd (hsub _ hin)⟩)
  rw [Listed, hk.id]
  rcases hl with hl | ⟨id, rfl, hl⟩
  · rw [hl]
    exact .inl hin
  · rw [hl, ChanList.slot_remove hi.short]
    split
    · next hid =>
      -- the channel that goes has handled the message that ends it
      obtain ⟨c', hc', hend⟩ := hi.ops (.remove id) (by rw [ho]; exact List.mem_cons_self)
      rw [Listed, hid, hc'] at hin
      cases hin
      refine .inr ⟨fun hreply => ?_, .inl hend⟩
      have hshape := hp.shape
      rw [ho] at hshape
      cases hshape _ hreply
    · exact .inl hin

/-- The channel handles a message. -/
theorem Life.take (h : s.Life c) (hin : s.Listed c) (hk : Kept s s' c) (hnil : s.ops = [])
    (hrun : s.running = true) {m : Message} {ch : Channel}
    (hh : (s.heap c).handle c m = .ok (ch, s'.ops)) (hl : s'.chanList = s.chanList)
    (hheap : s'.heap c = { ch with handled := ch.handled ++ [m] }) : s'.Life c := by
  have hnone : ∀ op, op ∉ s.ops := by
    intro op hop
    rw [hnil] at hop
    cases hop
  obtain ⟨-, -, hhand, hops⟩ := Channel.handle_ops hh
  have hlisted : s'.Listed c := by
    rw [Listed, hk.id, hl]
    exact hin
  -- a `CloseMessage` was handled before, or it is this one
  have hcase : (s'.heap c).handled.any Message.isClose = true →
      (s.heap c).handled.any Message.isClose = true ∨
        s'.ops = .reply c :: .remove (s.heap c).localId :: closeOps c := by
    intro hc
    rw [hheap, hhand, List.any_append, Bool.or_eq_true] at hc
    refine hc.imp_right fun hm => ?_
    rcases hops with hops | ⟨m', rfl, hops⟩ | ⟨m', rfl, -⟩ | ⟨m', rfl, -⟩
    · cases m with
      | close m => rw [hops] at hh; cases hh
      | _ => cases hm
    · exact hops
    · cases hm
    · cases hm
  constructor
  case replying => exact fun _ => hlisted
  case gone => exact fun hn => absurd hlisted hn
  case wound => exact fun hn => absurd hlisted hn
  case answered =>
    intro hc
    rcases hcase hc with hc | ho
    · exact .inr (hk.sent ((h.answered hc).resolve_left (hnone _)))
    · rw [ho]
      exact .inl List.mem_cons_self
  case marked =>
    intro _ hmark
    rw [hheap, List.any_append, Bool.or_eq_true]
    rcases hops with hops | ⟨m', rfl, -⟩ | ⟨m', -, hops⟩ | ⟨m', -, hops⟩
    · rw [hops] at hmark
      cases hmark
    · exact .inr rfl
    · simp [hops] at hmark
    · simp [hops] at hmark
  case flagged =>
    intro _ hs
    rcases hk.marked hs with hs | hs | ⟨ops, ho⟩
    · exact hk.sent (h.flagged hrun hs)
    · exact hs
    · rw [hnil] at ho
      cases ho
  case closing =>
    intro hc
    rcases hcase hc with hc | ho
    · have hw := h.closing hc
      exact ⟨.inr (hk.eof (hw.eof.resolve_left (hnone _))), .inr (hk.msg (hw.msg.resolve_left (hnone _))),
        .inr (hk.win (hw.win.resolve_left (hnone _)))⟩
    · refine .of_closeOps fun op hop => ?_
      rw [ho]
      exact List.mem_cons_of_mem _ (List.mem_cons_of_mem _ hop)

theorem Life.step (h : s.Life c) (hi : s.Inv) (hp : s.Plans) (hc : c < s.fresh)
    (ht : Trans s a s' out) : s'.Life c := by
  have hch := hi.changes ht hc
  have hk := hch.kept
  have hw := hi.work hp ht
  have hlisted : s'.chanList = s.chanList → s.Listed c → s'.Listed c := by
    intro hl hin
    rw [Listed, hl, hk.id]
    exact hin
  have running : s.running = true → s.running = false → .dropAll ∉ s.ops →
      s'.running = false ∧ .dropAll ∉ s'.ops := by
    intro hr hs
    rw [hr] at hs
    cases hs
  cases hi.work hp ht with
  | app hby hf hl ho hr =>
    have hh : (s'.heap c).handled = (s.heap c).handled := by
      cases hch with
      | none hh _ => rw [hh]
      | move hby' hm hh _ =>
        rw [hh]
        rcases hby c _ hby' with ⟨b, rfl⟩ | rfl
        · exact hm.call_frame.2.1
        · cases hm
          rfl
    exact h.keep hk hp hw hh (fun h => hr ▸ h) (fun h => .inl (hlisted hl h)) (fun h => ho ▸ h)
      (fun _ h => ho ▸ h) (fun h h' => ⟨hr ▸ h, ho ▸ h'⟩)
  | register hl hs =>
    subst hs
    exact h.keep hk hp hw (congrArg Channel.handled (added_old s outboundChannel hc)) id
      (fun hin => .inl ((added_listed hl hc).mpr hin)) id (fun _ h => h) (fun h hd => ⟨h, hd⟩)
  | exit hn ha hrun hf hl ho hr =>
    have hh : (s'.heap c).handled = (s.heap c).handled := by
      by_cases hm : ∃ m, a = .recv (.ok m)
      · obtain ⟨m, rfl⟩ := hm
        rw [ha m rfl]
      · exact hch.handled fun m hm' => hm ⟨m, hm'⟩
    refine h.keep hk hp hw hh (fun _ => hrun) (fun h => .inl (hlisted hl h)) (fun hin => ?_)
      (fun h => ?_) (running hrun)
    · rw [ho] at hin
      cases mem_exitOps hin (by simp) (by simp) (by simp)
    · rw [hr] at h
      cases h
  | @take m c₀ ch ops hrun hnil hm hg hh hs =>
    subst hs
    rw [ChanList.getChan_eq hi.short] at hg
    by_cases heq : c = c₀
    · subst heq
      have hin : s.Listed c := by
        rw [Listed, (hi.listed _ _ hg).2.1]
        exact hg
      exact h.take hin hk hnil hrun hh rfl (Function.update_self _ _ _)
    · have hsame : (s.put c₀ { ch with handled := ch.handled ++ [m] }).heap c = s.heap c :=
        Function.update_of_ne heq _ _
      have hother : .reply c ∉ ops ∧ .markClosed c ∉ ops := by
        obtain ⟨-, -, -, rfl | ⟨m', -, rfl⟩ | ⟨m', -, rfl⟩ | ⟨m', -, rfl⟩⟩ := Channel.handle_ops hh <;>
          simp [closeOps, heq]
      exact h.keep hk hp hw (congrArg Channel.handled hsame) (fun _ => hrun)
        (fun hin => .inl (hlisted rfl hin)) (fun hin => absurd hin hother.1)
        (fun _ hin => absurd hin hother.2) (running hrun)
  | rejectOpen hnil hrun hs =>
    subst hs
    exact h.keep hk hp hw rfl id .inl (fun hin => by simp at hin) (fun _ hin => by simp at hin)
      (running hrun)
  | @handleOpen m hnil hrun hl hs =>
    subst hs
    exact h.keep hk hp hw (congrArg Channel.handled (added_old s (inboundChannel m) hc)) id
      (fun hin => .inl ((added_listed hl hc).mpr hin)) (fun hin => by simp at hin)
      (fun _ hin => by simp at hin) (running hrun)
  | pop ho hd hdone hf hl hr =>
    exact h.pop hi hp hk hw (hch.handled fun m hm => by cases hm) ho hl hr
  | @dropAll ops ok ho hs =>
    subst hs
    have hstop : s.running = false := hi.ops .dropAll (by rw [ho]; exact List.mem_cons_self)
    have hplain := (hp.step ht).stopped hstop
    have honce := hi.drops ho
    refine h.keep hk hp hw rfl id (fun hin => ?_) (fun hin => ?_) (fun hr => ?_)
      (fun hr _ => ⟨hr, honce⟩)
    · right
      refine ⟨fun hin => ?_, .inr ⟨hstop, honce, .of_closeOps fun op hop => ?_⟩⟩
      · cases hplain _ hin
      · exact List.mem_append_left _ (List.mem_flatMap.mpr ⟨c, ChanList.mem_dropAll.mpr ⟨_, hin⟩, hop⟩)
    · cases hplain _ hin
    · rw [hstop] at hr
      cases hr

/-- What a step does to the set of channels. -/
theorem Work.fresh (h : Work s s' a) : s'.fresh = s.fresh ∨ ∃ mk ops,
    s' = { s.added mk with ops } ∧ s.chanList.length + 1 < 2 ^ 32 ∧ (∀ id, (mk id).localId = id) ∧
      (∀ id, (mk id).handled.any Message.isClose = false ∧ (mk id).sentClose = false ∧
        (mk id).pending.closed = false) ∧
      ∀ op ∈ ops, op ∈ s.ops ∨ op = .publish s.fresh ∨ op = .confirm s.fresh := by
  cases h with
  | app _ hf | exit _ _ _ hf | pop _ _ _ hf => exact .inl hf
  | take _ _ _ _ _ hs | rejectOpen _ _ hs | dropAll _ hs => exact .inl (by subst hs; rfl)
  | register hl hs =>
    exact .inr ⟨outboundChannel, s.ops, hs, hl, fun _ => rfl, fun _ => ⟨rfl, rfl, rfl⟩, fun _ => .inl⟩
  | @handleOpen m _ _ hl hs =>
    exact .inr ⟨inboundChannel m, _, hs, hl, fun _ => rfl, fun _ => ⟨rfl, rfl, rfl⟩,
      fun op hop => .inr (by simpa using hop)⟩

/-- No channel comes back to the list. -/
theorem Work.unlisted (h : Work s s' a) (hi : s.Inv) (hc : c < s.fresh)
    (hid : (s'.heap c).localId = (s.heap c).localId) (hin : s'.Listed c) : s.Listed c := by
  have hsame : s'.chanList = s.chanList → s.Listed c := by
    intro hl
    rw [Listed, hid, hl] at hin
    exact hin
  cases h with
  | app _ _ hl | exit _ _ _ _ hl => exact hsame hl
  | take _ _ _ _ _ hs | rejectOpen _ _ hs => exact hsame (by subst hs; rfl)
  | register hl hs =>
    subst hs
    exact (added_listed hl hc).mp hin
  | handleOpen _ _ hl hs =>
    subst hs
    exact (added_listed hl hc).mp hin
  | pop _ _ _ _ hl =>
    rcases hl with hl | ⟨id, -, hl⟩
    · exact hsame hl
    · rw [Listed, hid, hl] at hin
      exact (ChanList.slot_of_remove hi.short hin).2
  | dropAll _ hs =>
    rw [Listed, hs] at hin
    cases hin

theorem plans {ok : Session → Act → Prop} (run : Run next ok newSession s) : s.Plans := by
  refine run.invariant .start fun s a s' _ h _ hn => ?_
  obtain ⟨out, ht⟩ := exists_trans hn
  exact h.step ht

theorem lives {ok : Session → Act → Prop} (run : Run next ok newSession s) :
    ∀ c < s.fresh, s.Life c := by
  refine Run.invariant (I := fun s => ∀ c < s.fresh, s.Life c)
    (fun c hc => absurd hc (Nat.not_lt_zero c)) (fun s a s' hr h _ hn c hc => ?_) run
  have hi := Inv.of_run hr
  have hp := plans hr
  obtain ⟨out, ht⟩ := exists_trans hn
  rcases (hi.work hp ht).fresh with hf | ⟨mk, ops, rfl, hl, hid, hnew, hops⟩
  · rw [hf] at hc
    exact (h c hc).step hi hp hc ht
  · rcases Nat.lt_succ_iff_lt_or_eq.mp hc with hc | rfl
    · exact (h c hc).step hi hp hc ht
    · have hheap := added_new s mk
      refine .new (Listed.new hl hid) (fun op hop => ?_) ?_ ?_
      · rcases hops op hop with hop | rfl | rfl
        · have hok := hi.ops op hop
          constructor
          · rintro rfl
            exact Nat.lt_irrefl _ hok.1
          · rintro rfl
            exact Nat.lt_irrefl _ hok
        · simp
        · simp
      · exact hheap ▸ (hnew _).1
      · exact hheap ▸ (hnew _).2.1

/-- Two channels with one id: the older one has left the list. -/
theorem reused {ok : Session → Act → Prop} (run : Run next ok newSession s) :
    ∀ c d, c < d → d < s.fresh → (s.heap d).localId = (s.heap c).localId → ¬ s.Listed c := by
  refine Run.invariant (I := fun s => ∀ c d, c < d → d < s.fresh →
    (s.heap d).localId = (s.heap c).localId → ¬ s.Listed c)
    (fun c d _ hd => absurd hd (Nat.not_lt_zero d)) (fun s a s' hr h _ hn c d hcd hd heq hin => ?_) run
  have hi := Inv.of_run hr
  obtain ⟨out, ht⟩ := exists_trans hn
  have hwork := hi.work (plans hr) ht
  have hold : d < s.fresh → False := by
    intro hd
    have hidc := (hi.changes ht (hcd.trans hd)).extends.localId
    have hidd := (hi.changes ht hd).extends.localId
    rw [hidc, hidd] at heq
    exact h c d hcd hd heq (hwork.unlisted hi (hcd.trans hd) hidc hin)
  rcases hwork.fresh with hf | ⟨mk, ops, rfl, hl, hid, -⟩
  · exact hold (hf ▸ hd)
  · rcases Nat.lt_succ_iff_lt_or_eq.mp hd with hd | rfl
    · exact hold hd
    · have hnew : (s.added mk).Listed s.fresh := Listed.new hl hid
      rw [Listed, heq] at hnew
      exact Nat.ne_of_lt hcd (Option.some.inj (hin.symm.trans hnew))

/-- What lets a channel leave the list. -/
def Left (s : Session) (c : Nat) : Prop :=
  ((s.heap c).sent.any Message.isClose = true ∧ (s.heap c).handled.any Message.isClose = true) ∨
    (s.heap c).handled.any Message.isFailure = true ∨ (s.running = false ∧ .dropAll ∉ s.ops)

/-- The local life cycle of a channel. -/
structure LifeCycle (s : Session) (c : Nat) : Prop where
  once : (s.heap c).sent.countP Message.isClose ≤ 1
  /-- a `CloseMessage` that `handle` is done with has been answered -/
  answered : (s.heap c).handled.any Message.isClose = true → .reply c ∉ s.ops →
    (s.heap c).sent.any Message.isClose = true
  left : ¬ s.Listed c → s.Left c
  /-- another channel gets the id later only -/
  reused : ∀ d < s.fresh, c < d → (s.heap d).localId = (s.heap c).localId → s.Left c
  /-- `close()` has run when the loop has done what it does for the channel -/
  wound : ¬ s.Listed c → (∀ op ∈ s.ops, op ∉ closeOps c) →
    (s.heap c).handled.any Message.isFailure = false →
    (s.heap c).pending.closed = true ∧ (s.heap c).remoteWin.closed = true

theorem Life.left (h : s.Life c) (hn : ¬ s.Listed c) : s.Left c := by
  rcases h.gone hn with hend | hdropped
  · rw [Channel.ended, Bool.or_eq_true] at hend
    rcases hend with hc | hf
    · exact .inl ⟨(h.answered hc).resolve_left fun hin => hn (h.replying hin), hc⟩
    · exact .inr (.inl hf)
  · exact .inr (.inr hdropped)

/-- No channel sends two `CloseMessage`s. -/
theorem closesOnce {ok : Session → Act → Prop} (run : Run next ok newSession s) :
    ∀ c < s.fresh, (s.heap c).sent.countP Message.isClose ≤ 1 := by
  refine channel_invariant (P := fun ch => ch.sent.countP Message.isClose ≤ 1) (fun _ => ?_)
    (fun _ _ => ?_) (fun s a c who ms ch hr hc _ _ h hm => ?_) run
  · exact Nat.zero_le 1
  · exact Nat.zero_le 1
  · exact hm.closesOnce h (spoken hr c hc).unclosed

theorem life_cycle (run : Run next anyStep newSession s) : ∀ c < s.fresh, s.LifeCycle c := by
  intro c hc
  have h := lives run c hc
  refine ⟨closesOnce run c hc, fun hcl hn => (h.answered hcl).resolve_left hn, h.left,
    fun d hd hcd heq => h.left (reused run c d hcd hd heq), fun hn hops hf => ?_⟩
  have hw := h.wound hn hf
  have hnone : ∀ op ∈ closeOps c, op ∉ s.ops := fun op hop hin => hops op hin hop
  exact ⟨hw.eof.resolve_left (hnone _ (by simp [closeOps])),
    hw.win.resolve_left (hnone _ (by simp [closeOps]))⟩

/-- Both ends close at once; the id is used again. -/
theorem life_cycle_run : ∃ s : Session, s.LifeCycle 0 ∧ ¬ s.Listed 0 ∧ s.ops = [] ∧
    (s.heap 0).pending.closed = true ∧ (s.heap 1).localId = (s.heap 0).localId := by
  obtain ⟨s, run, hs⟩ := Run.of_exec next anyStep newSession
    [.recv (.ok (.openMsg ⟨7, 100, 32768⟩)), .loop true, .loop true, .accept,
     .recv (.ok (.close ⟨0⟩)), .call 0 .close, .loop true, .loop true, .loop true, .loop true,
     .loop true, .loop true, .register]
    (fun s => decide (s.fresh = 2 ∧ ¬ s.Listed 0 ∧ s.ops = [] ∧
      (s.heap 0).handled.any Message.isFailure = false ∧
      (s.heap 1).localId = (s.heap 0).localId)) (by decide +kernel)
  simp only [decide_eq_true_eq] at hs
  obtain ⟨hf, hn, ho, hfail, hid⟩ := hs
  have h := life_cycle run 0 (by rw [hf]; exact Nat.zero_lt_two)
  have hnone : ∀ op ∈ s.ops, op ∉ closeOps 0 := by
    intro op hop
    rw [ho] at hop
    cases hop
  exact ⟨s, h, hn, ho, (h.wound hn hnone hfail).1, hid⟩

end Session

end Qtalk.Mux
