import Qtalk.Js.Output

/-!
# The close handshake

A channel has to be shut down once Close has gone both ways, the session is closed or its
open failed, and no earlier: the peer's Close must still find it. `close` does the one half
or the other by `sentClose` alone. So the side that closes first is served, but the side
that answers a Close sends its own and never shuts down, a second `close` shuts down
before the peer has answered, and a failed open leaves the `ready` queue open. Without
these the handshake is kept in every run (`shut_down_exactly`).
-/

namespace Qtalk.Js
open Qtalk.Lib

def Message.isFailure : Message → Bool
  | .openFailure _ => true
  | _ => false

/-- A Close was sent for the channel. -/
def View.closeSent (v : View) : Bool := (sentOf v.log).any Message.isClose

/-- A Close came in for the channel. -/
def View.closeGot (v : View) : Bool := (gotOf v.log).any Message.isClose

/-- An OpenFailure came in for the channel. -/
def View.openFailed (v : View) : Bool := (gotOf v.log).any Message.isFailure

/-- Close was sent and received, or the session is closed, or the open failed. -/
def Finished (v : View) : Prop :=
  (v.closeSent = true ∧ v.closeGot = true) ∨ v.closed = true ∨ v.openFailed = true

theorem Finished.enter {v : View} (h : Finished v) (call : Call) : Finished (v.enter call) := by
  rw [View.enter_eq]
  rcases h with ⟨hs, hg⟩ | hc | hf
  · refine .inl ⟨?_, ?_⟩
    · rw [View.closeSent] at hs ⊢
      rw [sentOf_append, sentOf_append, List.any_append, List.any_append, hs, Bool.true_or, Bool.true_or]
    · rw [View.closeGot] at hg ⊢
      rw [gotOf_append, gotOf_append, List.any_append, List.any_append, hg, Bool.true_or, Bool.true_or]
  · exact .inr (.inl hc)
  · refine .inr (.inr ?_)
    rw [View.openFailed] at hf ⊢
    rw [gotOf_append, gotOf_append, List.any_append, List.any_append, hf, Bool.true_or, Bool.true_or]

/-- The channel is shut down: it is out of the table, the reads that wait were resolved with
undefined, later ones will be, and its `ready` queue is closed. -/
structure Down (v : View) : Prop where
  removed : v.listed = false
  unread : v.ch.readBuf = none
  resolved : ∀ r ∈ v.ch.readers, (r.1, .undefined) ∈ v.settled
  ready : v.ch.ready.closed = true

/-- Nothing of the channel is shut down: messages still find it. -/
structure Live (v : View) : Prop where
  listed : v.listed = true
  ready : v.ch.ready.closed = false

instance (v : View) : Decidable (Finished v) :=
  inferInstanceAs (Decidable (_ ∨ _))

/-- A method that neither shuts down nor gives the peer's Close or OpenFailure to the
channel. -/
structure Quiet (c : Chan) (out : Outcome) : Prop where
  ready : out.ch.ready.closed = c.ready.closed
  stays : View.removes out.effects = false
  unread : c.readBuf = none → out.ch.readBuf = none
  readers : c.readBuf = none → ∀ r ∈ out.ch.readers, r ∈ c.readers
  sent : out.ch.sentClose = true →
    c.sentClose = true ∨ (View.encodes out.effects).any Message.isClose = true

namespace Channel

variable {c : Chan}

@[simp] theorem removes_settle (p : Nat) (res : ReadResult) : View.removes (res.settle p) = false := by
  cases res <;> rfl

@[simp] theorem removes_shutdown (c : Chan) : View.removes c.shutdown.effects = true := by
  simp [shutdown, View.removes]

theorem tryRead_ready (c : Chan) (p len : Nat) : (c.tryRead p len).2.ready = c.ready := by
  rw [tryRead]
  split
  · rfl
  · split
    · rfl
    · split <;> rfl

theorem tryRead_unread (h : c.readBuf = none) (p len : Nat) : c.tryRead p len = (.undefined, c) := by
  rw [tryRead, h]

theorem quiet_send (c : Chan) (m : Message) : Quiet c (c.send m) := by
  rw [send]
  split
  · exact ⟨rfl, rfl, id, fun _ _ h => h, .inl⟩
  · exact ⟨rfl, rfl, id, fun _ _ h => h, fun h => .inr (List.any_eq_true.mpr ⟨m, List.mem_cons_self, h⟩)⟩

theorem quiet_read (c : Chan) (p len : Nat) : Quiet c (c.read p len) := by
  obtain ⟨hclose, -⟩ := tryRead_flags c p len
  refine ⟨congrArg Queue.closed (tryRead_ready c p len), removes_settle _ _, fun h => ?_, fun h r hr => ?_,
    fun h => .inl (hclose.symm.trans h)⟩
  · rw [read, tryRead_unread h]
    exact h
  · rw [read, tryRead_unread h] at hr
    exact hr

theorem quiet_write (c : Chan) (buf : List UInt8) : Quiet c (c.write buf) := by
  rw [write]
  split
  · exact ⟨rfl, rfl, id, fun _ _ h => h, .inl⟩
  · exact quiet_send c _

theorem quiet_closeWrite (c : Chan) : Quiet c c.closeWrite := by
  obtain ⟨h1, h2, h3, h4, h5⟩ := quiet_send { c with sentEOF := true } (.eof c.remoteId)
  exact ⟨h1, h2, h3, h4, h5⟩

theorem quiet_shift (c : Chan) (w : Waiter) : Quiet c (c.shift w) := by
  have hclosed : (c.ready.shift w).1.closed = c.ready.closed := by
    rw [Queue.shift]
    split
    · rfl
    · split <;> rfl
  refine ⟨hclosed, ?_, id, fun _ _ h => h, .inl⟩
  rw [shift]
  dsimp only
  cases (c.ready.shift w).2 <;> rfl

theorem quiet_pushReady (c : Chan) (v : Bool) : Quiet c (c.pushReady v) := by
  rw [pushReady]
  split
  · exact ⟨rfl, rfl, id, fun _ _ h => h, .inl⟩
  · next ready waiter h =>
    have hclosed : ready.closed = c.ready.closed := by
      rw [Queue.push] at h
      split at h
      · cases h
      · split at h <;> cases h <;> rfl
    refine ⟨hclosed, ?_, id, fun _ _ h => h, .inl⟩
    cases waiter <;> rfl

theorem quiet_close (hopen : c.sentClose = false) (p : Nat) : Quiet c (c.close p) := by
  have hsent : ¬ c.sentClose = true := Bool.eq_false_iff.mp hopen
  rw [close, if_neg hsent, send, if_neg hsent]
  exact ⟨rfl, rfl, id, fun _ _ h => h, fun _ => .inr rfl⟩

/-- Behind the first call, `close` is `shutdown`. -/
theorem close_sent (hsent : c.sentClose = true) (p : Nat) :
    (c.close p).ch = c.shutdown.ch ∧
      (c.close p).effects = c.shutdown.effects ++ [.settle p .undefined] := by
  rw [close, if_pos hsent]
  exact ⟨rfl, rfl⟩

theorem quiet_resume {t : Task} (h : ∀ p, t = .closeSent p → c.sentClose = true) :
    Quiet c (c.resume t) := by
  cases t with
  | opened p => exact quiet_shift c _
  | openReady p v => exact ⟨rfl, rfl, id, fun _ _ h => h, .inl⟩
  | closeSent p =>
    obtain ⟨h1, h2, h3, h4, -⟩ := quiet_shift { c with sentClose := true } (.closing p)
    exact ⟨h1, h2, h3, h4, fun _ => .inl (h p rfl)⟩
  | closeReady p v =>
    cases v with
    | none => exact ⟨rfl, rfl, id, fun _ _ h => h, .inl⟩
    | some v => exact quiet_shift c _

theorem quiet_handleData {ch : Chan} {length : Nat} {data : List UInt8}
    {woken : Option (Nat × ReadResult)} (h : c.handleData length data = .ok (woken, ch)) :
    ch.ready = c.ready ∧ (c.readBuf = none → ch.readBuf = none) ∧
      (c.readBuf = none → ∀ r ∈ ch.readers, r ∈ c.readers) := by
  obtain ⟨-, -, ⟨-, -, hch⟩ | ⟨p, len, readers, hreaders, -, hch⟩⟩ := handleData_ok h
  · rw [hch]
    exact ⟨rfl, fun hb => by rw [take, hb]; rfl, fun _ _ hr => hr⟩
  · have hb' : c.readBuf = none → (c.taken length data readers).readBuf = none := by
      intro hb
      rw [taken, hb]
      rfl
    refine ⟨?_, fun hb => ?_, fun hb r hr => ?_⟩
    · rw [hch, tryRead_ready, taken]
    · rw [hch, tryRead_unread (hb' hb)]
      exact hb' hb
    · rw [hch, tryRead_unread (hb' hb)] at hr
      rw [hreaders]
      exact List.mem_cons_of_mem _ hr

theorem quiet_handle (p : Nat) {m : Message} (hclose : m.isClose = false) (hfailure : m.isFailure = false) :
    Quiet c (c.handle p m) := by
  cases m with
  | openMsg senderID windowSize maxPacketSize => exact ⟨rfl, rfl, id, fun _ _ h => h, .inl⟩
  | openConfirm channelID senderID windowSize maxPacketSize =>
    rw [handle]
    split
    · exact ⟨rfl, rfl, id, fun _ _ h => h, .inl⟩
    · obtain ⟨h1, h2, h3, h4, h5⟩ := quiet_pushReady { c with
        remoteId := senderID, maxRemotePayload := maxPacketSize, remoteWin := c.remoteWin + windowSize } true
      exact ⟨h1, h2, h3, h4, h5⟩
  | openFailure channelID => cases hfailure
  | windowAdjust channelID additionalBytes => exact ⟨rfl, rfl, id, fun _ _ h => h, .inl⟩
  | data channelID length data =>
    rw [handle]
    cases hd : c.handleData length data with
    | error e => exact ⟨rfl, rfl, id, fun _ _ h => h, .inl⟩
    | ok res =>
      obtain ⟨woken, ch⟩ := res
      obtain ⟨h1, h2, h3⟩ := quiet_handleData hd
      refine ⟨congrArg Queue.closed h1, ?_, h2, h3, fun hs => .inl ((handleData_flags hd).1 ▸ hs)⟩
      cases woken with
      | none => rfl
      | some w => simp
  | eof channelID => exact ⟨rfl, rfl, id, fun _ _ h => h, .inl⟩
  | close channelID => cases hclose

end Channel

/-- What keeps the handshake: the flag tells of the Close that was sent, a Close that comes
in is an answer, and `ready` is closed where the channel is finished. -/
structure Handshake (v : View) : Prop where
  listed : v.listed = !v.ch.ready.closed
  sent : v.ch.sentClose = true → v.closeSent = true
  got : v.closeGot = true → v.ch.sentClose = true
  unread : v.ch.ready.closed = true → v.ch.readBuf = none
  resolved : v.ch.ready.closed = true → ∀ r ∈ v.ch.readers, (r.1, .undefined) ∈ v.settled
  finished : Finished v ↔ v.ch.ready.closed = true

section Enter

variable (v : View) (call : Call)

theorem closeSent_enter : (v.enter call).closeSent =
    (v.closeSent || (View.encodes (v.ch.enter call).effects).any Message.isClose) := by
  rw [View.closeSent, View.enter_eq, sentOf_append, sentOf_append, sentOf_map, sentOf_entries,
    List.append_nil, List.any_append]
  rfl

theorem closeGot_enter :
    (v.enter call).closeGot = (v.closeGot || (gotOf call.entries).any Message.isClose) := by
  rw [View.closeGot, View.enter_eq, gotOf_append, gotOf_append, gotOf_map, List.append_nil,
    List.any_append]
  rfl

theorem openFailed_enter :
    (v.enter call).openFailed = (v.openFailed || (gotOf call.entries).any Message.isFailure) := by
  rw [View.openFailed, View.enter_eq, gotOf_append, gotOf_append, gotOf_map, List.append_nil,
    List.any_append]
  rfl

end Enter

namespace Handshake

variable {v : View}

theorem down (h : Handshake v) (hf : Finished v) : Down v := by
  have hready := h.finished.mp hf
  exact ⟨by rw [h.listed, hready]; rfl, h.unread hready, h.resolved hready, hready⟩

theorem live (h : Handshake v) (hf : ¬ Finished v) : Live v := by
  have hready : v.ch.ready.closed = false := Bool.eq_false_iff.mpr fun hc => hf (h.finished.mpr hc)
  exact ⟨by rw [h.listed, hready]; rfl, hready⟩

/-- A channel that is shut down and finished. -/
theorem of_down (hd : Down v) (hf : Finished v) (hsent : v.ch.sentClose = true → v.closeSent = true)
    (hgot : v.closeGot = true → v.ch.sentClose = true) : Handshake v where
  listed := by rw [hd.removed, hd.ready]; rfl
  sent := hsent
  got := hgot
  unread _ := hd.unread
  resolved _ := hd.resolved
  finished := ⟨fun _ => hd.ready, fun _ => hf⟩

/-- A new channel. -/
theorem fresh (hlisted : v.listed = true) (hready : v.ch.ready.closed = false)
    (hsent : v.ch.sentClose = false) (hgot : v.closeGot = false) (hfailed : v.openFailed = false)
    (hclosed : v.closed = false) : Handshake v := by
  have hopen : ¬ Finished v := by
    rw [Finished, hgot, hfailed, hclosed]
    simp
  refine ⟨by rw [hlisted, hready]; rfl, fun h => ?_, fun h => ?_, fun h => ?_, fun h => ?_, fun h => ?_,
    fun h => ?_⟩
  · rw [hsent] at h
    cases h
  · rw [hgot] at h
    cases h
  · rw [hready] at h
    cases h
  · rw [hready] at h
    cases h
  · exact absurd h hopen
  · rw [hready] at h
    cases h

/-- `shutdown`, and whatever a method does behind it. -/
theorem down_enter {call : Call} {es : List Effect} (hch : (v.ch.enter call).ch = v.ch.shutdown.ch)
    (hes : (v.ch.enter call).effects = v.ch.shutdown.effects ++ es) : Down (v.enter call) := by
  have hch' : (v.enter call).ch = v.ch.shutdown.ch := by rw [View.enter_eq, hch]
  refine ⟨?_, ?_, fun r hr => ?_, ?_⟩
  · rw [View.enter_eq, hes, View.removes_append, Channel.removes_shutdown, Bool.true_or, Bool.not_true,
      Bool.and_false]
  · rw [hch']
    rfl
  · rw [hch'] at hr
    rw [View.enter_eq, hes, View.settles_append, Channel.settles_shutdown, List.mem_append,
      List.mem_append]
    exact .inr (.inl (List.mem_map.mpr ⟨r, hr, rfl⟩))
  · rw [hch', Channel.shutdown, Queue.close]
    dsimp only
    split
    · assumption
    · rfl

/-- A quiet method keeps the handshake. -/
theorem quiet (h : Handshake v) {call : Call} (hq : Quiet v.ch (v.ch.enter call))
    (hcloses : (gotOf call.entries).any Message.isClose = false)
    (hfailures : (gotOf call.entries).any Message.isFailure = false) : Handshake (v.enter call) := by
  have hgot := closeGot_enter v call
  rw [hcloses, Bool.or_false] at hgot
  have hfailed := openFailed_enter v call
  rw [hfailures, Bool.or_false] at hfailed
  have hsent := closeSent_enter v call
  have hch : (v.enter call).ch = (v.ch.enter call).ch := by rw [View.enter_eq]
  have hready : (v.enter call).ch.ready.closed = v.ch.ready.closed := by rw [hch, hq.ready]
  have hclosed : (v.enter call).closed = v.closed := by rw [View.enter_eq]
  have hkeeps : v.ch.sentClose = true → (v.enter call).ch.sentClose = true := by
    rw [hch]
    cases Channel.speaks_enter v.ch call with
    | silent hnone hclose heof => exact hclose
    | writes m hone hopen hclose heof hdata hconfirm =>
      intro hc
      rw [hopen] at hc
      cases hc
  refine ⟨?_, fun hc => ?_, fun hg => ?_, fun hr => ?_, fun hr r hmem => ?_, ?_⟩
  · rw [hready, ← h.listed, View.enter_eq, hq.stays, Bool.not_false, Bool.and_true]
  · rw [hch] at hc
    rw [hsent]
    rcases hq.sent hc with hc | hc
    · rw [h.sent hc, Bool.true_or]
    · rw [hc, Bool.or_true]
  · rw [hgot] at hg
    exact hkeeps (h.got hg)
  · rw [hready] at hr
    rw [hch]
    exact hq.unread (h.unread hr)
  · rw [hready] at hr
    rw [hch] at hmem
    rw [View.enter_eq, List.mem_append]
    exact .inl (h.resolved hr r (hq.readers (h.unread hr) r hmem))
  · -- a Close that is sent now finishes nothing: the peer's would have come in before
    have hboth : (v.enter call).closeSent = true ∧ v.closeGot = true ↔
        v.closeSent = true ∧ v.closeGot = true := by
      rw [hsent]
      constructor
      · rintro ⟨-, hg⟩
        exact ⟨h.sent (h.got hg), hg⟩
      · rintro ⟨hs, hg⟩
        exact ⟨by rw [hs, Bool.true_or], hg⟩
    rw [hready, ← h.finished, Finished, Finished, hgot, hfailed, hclosed, hboth]

/-- A method that shuts the channel down, once the channel is finished by it. -/
theorem shuts (h : Handshake v) {call : Call} {es : List Effect}
    (hch : (v.ch.enter call).ch = v.ch.shutdown.ch)
    (hes : (v.ch.enter call).effects = v.ch.shutdown.effects ++ es) (hf : Finished (v.enter call))
    (hclose : v.ch.sentClose = true ∨ (gotOf call.entries).any Message.isClose = false) :
    Handshake (v.enter call) := by
  have hch' : (v.enter call).ch = v.ch.shutdown.ch := by rw [View.enter_eq, hch]
  refine of_down (down_enter hch hes) hf (fun hc => ?_) (fun hg => ?_)
  · rw [hch'] at hc
    rw [closeSent_enter, h.sent hc, Bool.true_or]
  · rw [hch']
    rw [closeGot_enter] at hg
    rcases hclose with hc | hc
    · exact hc
    · rw [hc, Bool.or_false] at hg
      exact h.got hg

/-- The session is closed. -/
theorem shut (h : Handshake v) : Handshake v.shut := by
  have hf : Finished v.shut := .inr (.inl rfl)
  by_cases hl : v.listed = true
  · have hdown : Down (v.enter .shutdown) := down_enter rfl (List.append_nil _).symm
    obtain ⟨h1, h2, h3, h4⟩ := hdown
    have hch : (v.enter .shutdown).ch = v.ch.shutdown.ch := by rw [View.enter_eq, Channel.enter]
    have hsent := closeSent_enter v .shutdown
    have hgot := closeGot_enter v .shutdown
    rw [View.shut, if_pos hl] at hf ⊢
    refine of_down ⟨h1, h2, h3, h4⟩ hf (fun hc => ?_) (fun hg => ?_)
    · dsimp only at hc
      rw [hch] at hc
      refine hsent.trans ?_
      rw [h.sent hc, Bool.true_or]
    · have hg' : v.closeGot = true := (Bool.or_false _ ▸ hgot).symm.trans hg
      dsimp only
      rw [hch]
      exact h.got hg'
  · have hready : v.ch.ready.closed = true := by
      rw [h.listed, Bool.not_eq_true', Bool.not_eq_false] at hl
      exact hl
    rw [View.shut, if_neg hl] at hf ⊢
    have hlisted : v.listed = false := Bool.eq_false_iff.mpr hl
    exact of_down ⟨hlisted, h.unread hready, h.resolved hready, hready⟩ hf h.sent h.got

end Handshake

namespace Session

variable {s s' : Session} {o : Nat} {ok : Session → Act → Prop}

/-- The steps under which the handshake is kept: no channel is made once the session is
closed, `close` is not called again while the peer's Close is awaited, the peer closes only
what was closed here, and no open fails. -/
def Handshaken (s : Session) : Act → Prop
  | .openChannel => s.closed = false
  | .close o => (s.view o).ch.sentClose = true → Finished (s.view o)
  | .decoded (.ok (.openMsg _ _ maxPacketSize)) =>
    Channel.minPacketLength ≤ maxPacketSize → s.closed = false
  | .decoded (.ok (.openFailure channelID)) => s.getCh channelID = none
  | .decoded (.ok (.close channelID)) =>
    s.getCh channelID = none ∨ (s.view channelID).ch.sentClose = true
  | _ => True

instance (s : Session) : (a : Act) → Decidable (Handshaken s a)
  | .openChannel => inferInstanceAs (Decidable (s.closed = false))
  | .close o => inferInstanceAs (Decidable ((s.view o).ch.sentClose = true → Finished (s.view o)))
  | .decoded (.ok (.openMsg _ _ maxPacketSize)) =>
    inferInstanceAs (Decidable (Channel.minPacketLength ≤ maxPacketSize → s.closed = false))
  | .decoded (.ok (.openFailure channelID)) => inferInstanceAs (Decidable (s.getCh channelID = none))
  | .decoded (.ok (.close channelID)) =>
    inferInstanceAs (Decidable (s.getCh channelID = none ∨ (s.view channelID).ch.sentClose = true))
  | .decoded (.ok (.openConfirm ..)) => .isTrue trivial
  | .decoded (.ok (.windowAdjust ..)) => .isTrue trivial
  | .decoded (.ok (.data ..)) => .isTrue trivial
  | .decoded (.ok (.eof _)) => .isTrue trivial
  | .decoded (.error _) => .isTrue trivial
  | .accept => .isTrue trivial
  | .closeSession => .isTrue trivial
  | .read .. => .isTrue trivial
  | .write .. => .isTrue trivial
  | .closeWrite _ => .isTrue trivial
  | .resume _ => .isTrue trivial

/-- A channel whose Close was sent stays so. -/
theorem sentClose_enter (v : View) (call : Call) (h : v.ch.sentClose = true) :
    (v.enter call).ch.sentClose = true := by
  rw [View.enter_eq]
  cases Channel.speaks_enter v.ch call with
  | silent hnone hclose heof => exact hclose h
  | writes m hone hopen hclose heof hdata hconfirm =>
    rw [hopen] at h
    cases h

/-- The tasks behind the `send` of a `close` are those of channels whose Close was sent. -/
theorem Run.closing (run : Run step ok new s) :
    ∀ o p, (o, .closeSent p) ∈ s.tasks → o < s.chans.length ∧ (s.view o).ch.sentClose = true := by
  induction run with
  | start =>
    intro o p h
    cases h
  | @step s s' a run _ hs ih =>
    obtain ⟨-, hchanges, hgrows, hclosing⟩ := (Run.numbered run).steps hs
    have hlen : s.chans.length ≤ s'.chans.length := by
      cases hgrows with
      | same h => exact Nat.le_of_eq h.symm
      | outbound _ h _ => omega
      | inbound _ _ _ _ _ _ h _ => omega
    intro o p h
    rcases hclosing o p h with h | ⟨ho, h⟩
    · obtain ⟨ho, hsent⟩ := ih o p h
      refine ⟨Nat.lt_of_lt_of_le ho hlen, ?_⟩
      cases hchanges o ho with
      | same h => exact h ▸ hsent
      | enter call _ _ h => exact h ▸ sentClose_enter _ call hsent
      | shut _ h =>
        rw [h, View.shut]
        split
        · exact sentClose_enter _ .shutdown hsent
        · exact hsent
      | accepted p _ h => exact h ▸ hsent
    · exact ⟨Nat.lt_of_lt_of_le ho hlen, h⟩

/-- A step that meets the condition and enters a channel keeps the handshake. -/
theorem handshake_enter (run : Run step ok new s) {a : Act} {call : Call} (hok : Handshaken s a)
    (ht : s.target a = some (o, call)) (hcall : call.For o) (h : Handshake (s.view o)) :
    Handshake ((s.view o).enter call) := by
  rcases target_cases ht with ⟨len, ha, rfl⟩ | ⟨buf, ha, rfl⟩ | ⟨ha, rfl⟩ | ⟨ha, rfl⟩ |
    ⟨i, t, ha, hmem, rfl⟩ | ⟨m, ha, hm, hg, rfl⟩
  · exact h.quiet (Channel.quiet_read _ _ _) rfl rfl
  · exact h.quiet (Channel.quiet_write _ _) rfl rfl
  · exact h.quiet (Channel.quiet_closeWrite _) rfl rfl
  · cases hsent : (s.view o).ch.sentClose with
    | false => exact h.quiet (Channel.quiet_close hsent _) rfl rfl
    | true =>
      obtain ⟨hch, hes⟩ := Channel.close_sent hsent s.calls
      rw [ha] at hok
      exact h.shuts hch hes ((hok hsent).enter _) (.inl hsent)
  · refine h.quiet (Channel.quiet_resume fun p hp => ?_) rfl rfl
    exact (Run.closing run o p (hp ▸ hmem)).2
  · rw [ha] at hok
    have hother : m.isClose = false → m.isFailure = false →
        Handshake ((s.view o).enter (.handle s.calls m)) := by
      intro hclose hfailure
      have hq : Quiet (s.view o).ch ((s.view o).ch.enter (.handle s.calls m)) :=
        Channel.quiet_handle s.calls hclose hfailure
      refine h.quiet hq ?_ ?_
      · exact (Bool.or_false _).trans hclose
      · exact (Bool.or_false _).trans hfailure
    cases m with
    | close channelID =>
      have hid : channelID = o := hcall
      have hsent : (s.view o).ch.sentClose = true := by
        rcases hok with hnone | hsent
        · exact absurd (hnone.symm.trans hg) (by simp)
        · exact hid ▸ hsent
      obtain ⟨hch, hes⟩ := Channel.close_sent hsent s.calls
      have hf : Finished ((s.view o).enter (.handle s.calls (.close channelID))) := by
        refine .inl ⟨?_, ?_⟩
        · rw [closeSent_enter, h.sent hsent, Bool.true_or]
        · rw [closeGot_enter]
          exact Bool.or_true _
      exact h.shuts hch hes hf (.inl hsent)
    | openFailure channelID =>
      have hnone : s.getCh channelID = none := hok
      exact absurd (hnone.symm.trans hg) (by simp)
    | _ => exact hother rfl rfl

theorem Run.handshake (run : Run step Handshaken new s) (ho : o < s.chans.length) :
    Handshake (s.view o) := by
  refine view_invariant (I := Handshake) ?_ ?_ ?_ ?_ ?_ run ho
  · intro s hok
    exact .fresh rfl rfl rfl rfl rfl hok
  · intro s senderID windowSize maxPacketSize waiter hok hmax
    exact .fresh rfl rfl rfl rfl rfl (hok hmax)
  · intro s a o call run hok ht hcall h
    exact handshake_enter run hok ht hcall h
  · intro s a o _ _ h
    exact h.shut
  · intro s o p h
    exact ⟨h.listed, h.sent, h.got, h.unread,
      fun hr r hmem => List.mem_append_left _ (h.resolved hr r hmem), h.finished⟩

/-- **The close handshake.** In every run whose steps meet the condition, a channel is shut
down as soon as Close has gone both ways, the session is closed or its open failed, and
until then messages find it. -/
theorem shut_down_exactly (run : Run step Handshaken new s) (ho : o < s.chans.length) :
    (Finished (s.view o) → Down (s.view o)) ∧ (¬ Finished (s.view o) → Live (s.view o)) :=
  ⟨(Run.handshake run ho).down, (Run.handshake run ho).live⟩

/-- Two channels and a read that waits: one is closed here and answered by the peer, the
other is not closed. -/
theorem shut_down_exactly_run :
    ∃ s, Run step Handshaken new s ∧
      (Finished (s.view 0) ∧ (s.view 0).ch.readers ≠ [] ∧ ¬ Finished (s.view 1)) ∧
      Down (s.view 0) ∧ Live (s.view 1) := by
  obtain ⟨s, run, hs⟩ := Run.of_exec step Handshaken new
    [.decoded (.ok (.openMsg 7 100 32768)), .decoded (.ok (.openMsg 8 100 32768)), .read 0 4, .close 0,
     .resume 0, .decoded (.ok (.close 0))]
    (fun s => decide (s.chans.length = 2 ∧ Finished (s.view 0) ∧ (s.view 0).ch.readers ≠ [] ∧
      ¬ Finished (s.view 1))) (by decide +kernel)
  simp only [decide_eq_true_eq] at hs
  obtain ⟨hlen, hf0, hr, hf1⟩ := hs
  exact ⟨s, run, ⟨hf0, hr, hf1⟩, (shut_down_exactly run (o := 0) (by omega)).1 hf0,
    (shut_down_exactly run (o := 1) (by omega)).2 hf1⟩

/-- The peer closes first: Close has gone both ways, and the channel stays in the table with
its `ready` queue open. -/
theorem answered_close_stays :
    ¬ ∀ s o, Run step anyStep new s → o < s.chans.length →
      (Finished (s.view o) → Down (s.view o)) ∧ (¬ Finished (s.view o) → Live (s.view o)) := by
  intro h
  obtain ⟨s, run, hs⟩ := Run.of_exec step anyStep new
    [.decoded (.ok (.openMsg 7 100 32768)), .accept, .read 0 4, .decoded (.ok (.close 0)), .resume 0]
    (fun s => decide (0 < s.chans.length ∧ Finished (s.view 0) ∧ (s.view 0).listed = true))
    (by decide +kernel)
  simp only [decide_eq_true_eq] at hs
  obtain ⟨hlen, hf, hl⟩ := hs
  have hdown := (h s 0 run hlen).1 hf
  rw [hdown.removed] at hl
  cases hl

end Session

end Qtalk.Js
