import Qtalk.Js.Views

/-!
# What a channel writes

`send` looks at `sentClose` and sets it before the message is written, `write` looks at
`sentEOF`, and nothing else writes for a channel once it is made. So whatever comes in and
in whatever order tasks and calls run, a channel writes nothing behind its Close and no
data behind its Eof, and an accepted one begins with its OpenConfirm (`output_language`).
-/

namespace Qtalk.Js
open Qtalk.Lib

namespace Message

def isData : Message → Bool
  | .data .. => true
  | _ => false

def isEof : Message → Bool
  | .eof _ => true
  | _ => false

def isConfirm : Message → Bool
  | .openConfirm .. => true
  | _ => false

end Message

/-- `m'` may be written some time after `m`. -/
def MayFollow (m m' : Message) : Prop :=
  m.isClose = false ∧ (m.isEof = true → m'.isData = false)

/-- How a method of a channel writes: nothing, or one message that the flags allow. -/
inductive Speaks (c : Chan) (out : Outcome) : Prop where
  | silent (h : View.encodes out.effects = []) (hclose : c.sentClose = true → out.ch.sentClose = true)
      (heof : c.sentEOF = true → out.ch.sentEOF = true)
  | writes (m : Message) (h : View.encodes out.effects = [m]) (hopen : c.sentClose = false)
      (hclose : m.isClose = true → out.ch.sentClose = true)
      (heof : c.sentEOF = true ∨ m.isEof = true → out.ch.sentEOF = true)
      (hdata : m.isData = true → c.sentEOF = false) (hconfirm : m.isConfirm = false)

namespace Channel

variable {c : Chan}

theorem tryRead_flags (c : Chan) (p len : Nat) :
    (c.tryRead p len).2.sentClose = c.sentClose ∧ (c.tryRead p len).2.sentEOF = c.sentEOF := by
  rw [tryRead]
  split
  · exact ⟨rfl, rfl⟩
  · split
    · exact ⟨rfl, rfl⟩
    · split <;> exact ⟨rfl, rfl⟩

@[simp] theorem encodes_settle (p : Nat) (res : ReadResult) : View.encodes (res.settle p) = [] := by
  cases res <;> rfl

@[simp] theorem encodes_shutdown (c : Chan) : View.encodes c.shutdown.effects = [] := by
  simp [shutdown, View.encodes, List.filterMap_append, List.filterMap_map]

theorem settles_later (ws : List Waiter) (v : Option Bool) :
    View.settles (ws.map fun w => .later (w.task v)) = [] := by
  induction ws with
  | nil => rfl
  | cons w ws ih => exact ih

@[simp] theorem settles_shutdown (c : Chan) :
    View.settles c.shutdown.effects = c.readers.map fun r => (r.1, .undefined) := by
  have hreaders : ∀ rs : List (Nat × Nat),
      View.settles (rs.map fun r => .settle r.1 .undefined) = rs.map fun r => (r.1, .undefined) := by
    intro rs
    induction rs with
    | nil => rfl
    | cons r rs ih => exact congrArg (_ :: ·) ih
  rw [shutdown]
  dsimp only
  rw [View.settles_append, View.settles_append, settles_later, hreaders, List.append_nil]
  exact List.append_nil _

/-- `send` writes unless the Close was sent. -/
theorem speaks_send (c : Chan) {m : Message} (hdata : m.isData = true → c.sentEOF = false)
    (heof : m.isEof = true → c.sentEOF = true) (hconfirm : m.isConfirm = false) :
    Speaks c (c.send m) := by
  rw [send]
  split
  · exact .silent rfl id id
  · next hopen =>
    refine .writes m rfl (Bool.eq_false_iff.mpr hopen) id ?_ hdata hconfirm
    rintro (h | h)
    · exact h
    · exact heof h

theorem speaks_close (c : Chan) (p : Nat) : Speaks c (c.close p) := by
  rw [close]
  split
  · refine .silent ?_ id id
    dsimp only
    rw [View.encodes_append, encodes_shutdown]
    rfl
  · next hopen =>
    rw [send, if_neg hopen]
    refine .writes (.close c.remoteId) rfl (Bool.eq_false_iff.mpr hopen) id ?_ ?_ rfl
    · rintro (h | h)
      · exact h
      · cases h
    · intro h
      cases h

theorem speaks_shift (c : Chan) (w : Waiter) : Speaks c (c.shift w) := by
  refine .silent ?_ id id
  rw [shift]
  dsimp only
  cases (c.ready.shift w).2 <;> rfl

theorem speaks_pushReady (c : Chan) (v : Bool) : Speaks c (c.pushReady v) := by
  rw [pushReady]
  split
  · exact .silent rfl id id
  · next ready waiter h =>
    refine .silent ?_ id id
    cases waiter <;> rfl

theorem speaks_resume (c : Chan) (t : Task) : Speaks c (c.resume t) := by
  cases t with
  | opened p => exact speaks_shift c _
  | openReady p v => exact .silent rfl id id
  | closeSent p =>
    refine .silent ?_ (fun _ => rfl) id
    cases speaks_shift { c with sentClose := true } (.closing p) with
    | silent h => exact h
    | writes m h hopen => cases hopen
  | closeReady p v =>
    cases v with
    | none => exact .silent rfl id id
    | some v => exact speaks_shift c _

theorem handleData_flags {ch : Chan} {length : Nat} {data : List UInt8}
    {woken : Option (Nat × ReadResult)} (h : c.handleData length data = .ok (woken, ch)) :
    ch.sentClose = c.sentClose ∧ ch.sentEOF = c.sentEOF := by
  obtain ⟨-, -, ⟨-, -, hch⟩ | ⟨p, len, readers, -, -, hch⟩⟩ := handleData_ok h
  · rw [hch]
    exact ⟨rfl, rfl⟩
  · rw [hch]
    exact tryRead_flags _ p len

theorem speaks_handle (c : Chan) (p : Nat) (m : Message) : Speaks c (c.handle p m) := by
  cases m with
  | openMsg senderID windowSize maxPacketSize => exact .silent rfl id id
  | openConfirm channelID senderID windowSize maxPacketSize =>
    rw [handle]
    split
    · exact .silent rfl id id
    · cases speaks_pushReady { c with remoteId := senderID, maxRemotePayload := maxPacketSize,
                                      remoteWin := c.remoteWin + windowSize } true with
      | silent h hclose heof => exact .silent h hclose heof
      | writes m h hopen hclose heof hdata hconfirm => exact .writes m h hopen hclose heof hdata hconfirm
  | openFailure channelID =>
    cases speaks_pushReady c false with
    | silent h hclose heof => exact .silent h hclose heof
    | writes m h hopen hclose heof hdata hconfirm => exact .writes m h hopen hclose heof hdata hconfirm
  | windowAdjust channelID additionalBytes => exact .silent rfl id id
  | data channelID length data =>
    rw [handle]
    cases hd : c.handleData length data with
    | error e => exact .silent rfl id id
    | ok res =>
      obtain ⟨woken, ch⟩ := res
      obtain ⟨hclose, heof⟩ := handleData_flags hd
      refine .silent ?_ (fun h => hclose.trans h) (fun h => heof.trans h)
      cases woken with
      | none => rfl
      | some w => simp
  | eof channelID => exact .silent rfl id id
  | close channelID => exact speaks_close c p

/-- Every method keeps to its flags. -/
theorem speaks_enter (c : Chan) (call : Call) : Speaks c (c.enter call) := by
  cases call with
  | read p len =>
    obtain ⟨hclose, heof⟩ := tryRead_flags c p len
    exact .silent (encodes_settle _ _) (fun h => hclose.trans h) (fun h => heof.trans h)
  | write buf =>
    rw [enter, write]
    split
    · exact .silent rfl id id
    · next heof => exact speaks_send c (fun _ => Bool.eq_false_iff.mpr heof) (by intro h; cases h) rfl
  | closeWrite =>
    cases speaks_send { c with sentEOF := true } (m := .eof c.remoteId) (by intro h; cases h)
      (fun _ => rfl) rfl with
    | silent h hclose heof => exact .silent h hclose (fun _ => heof rfl)
    | writes m h hopen hclose heof hdata hconfirm =>
      refine .writes m h hopen hclose (fun _ => heof (.inl rfl)) ?_ hconfirm
      intro hm
      cases hdata hm
  | close p => exact speaks_close c p
  | shutdown => exact .silent (encodes_shutdown c) id id
  | handle p m => exact speaks_handle c p m
  | resume t => exact speaks_resume c t

end Channel

/-- The messages a channel has written are in order, and the flags know of a Close and an
Eof among them. -/
structure Spoken (v : View) : Prop where
  order : (sentOf v.log).Pairwise MayFollow
  unclosed : v.ch.sentClose = false → ∀ m ∈ sentOf v.log, m.isClose = false
  open_ : v.ch.sentEOF = false → ∀ m ∈ sentOf v.log, m.isEof = false
  confirmed : (∃ m ∈ gotOf v.log, m.isOpen = true) →
    ∃ m ms, sentOf v.log = m :: ms ∧ m.isConfirm = true ∧ ∀ m' ∈ ms, m'.isConfirm = false

theorem Spoken.enter {v : View} (h : Spoken v) {call : Call}
    (hcall : ∀ p m, call = .handle p m → m.isOpen = false) : Spoken (v.enter call) := by
  have hgot : ∀ m ∈ gotOf call.entries, m.isOpen = false := by
    intro m hm
    cases call with
    | handle p m' =>
      rw [List.mem_singleton.mp hm]
      exact hcall p m' rfl
    | _ => cases hm
  have hopen : (∃ m ∈ gotOf (v.enter call).log, m.isOpen = true) → ∃ m ∈ gotOf v.log, m.isOpen = true := by
    rintro ⟨m, hm, ho⟩
    rw [View.enter_eq, gotOf_append, gotOf_append, gotOf_map, List.append_nil, List.mem_append] at hm
    rcases hm with hm | hm
    · exact ⟨m, hm, ho⟩
    · rw [hgot m hm] at ho
      cases ho
  have hsent : sentOf (v.enter call).log
      = sentOf v.log ++ View.encodes (v.ch.enter call).effects := by
    rw [View.enter_eq, sentOf_append, sentOf_append, sentOf_map, sentOf_entries, List.append_nil]
  have hch : (v.enter call).ch = (v.ch.enter call).ch := by rw [View.enter_eq]
  cases Channel.speaks_enter v.ch call with
  | silent hnone hclose heof =>
    rw [hnone, List.append_nil] at hsent
    refine ⟨hsent ▸ h.order, fun hc => ?_, fun hc => ?_, fun ho => ?_⟩
    · rw [hsent]
      rw [hch] at hc
      refine h.unclosed (Bool.eq_false_iff.mpr fun hc' => ?_)
      rw [hclose hc'] at hc
      cases hc
    · rw [hsent]
      rw [hch] at hc
      refine h.open_ (Bool.eq_false_iff.mpr fun hc' => ?_)
      rw [heof hc'] at hc
      cases hc
    · rw [hsent]
      exact h.confirmed (hopen ho)
  | writes m hone hunclosed hclose heof hdata hconfirm =>
    rw [hone] at hsent
    refine ⟨?_, fun hc => ?_, fun hc => ?_, fun ho => ?_⟩
    · -- the Close was not sent yet, and data is written only while the Eof was not
      rw [hsent, List.pairwise_append]
      refine ⟨h.order, List.pairwise_singleton _ _, fun m' hm' m'' hm'' => ?_⟩
      rw [List.mem_singleton.mp hm'']
      refine ⟨h.unclosed hunclosed m' hm', fun hm => Bool.eq_false_iff.mpr fun hd => ?_⟩
      rw [h.open_ (hdata hd) m' hm'] at hm
      cases hm
    · rw [hch] at hc
      rw [hsent, List.forall_mem_append]
      refine ⟨h.unclosed hunclosed, fun m' hm' => Bool.eq_false_iff.mpr fun hm => ?_⟩
      rw [List.mem_singleton.mp hm'] at hm
      rw [hclose hm] at hc
      cases hc
    · rw [hch] at hc
      rw [hsent, List.forall_mem_append]
      refine ⟨h.open_ (Bool.eq_false_iff.mpr fun hc' => ?_), fun m' hm' => Bool.eq_false_iff.mpr fun hm => ?_⟩
      · rw [heof (.inl hc')] at hc
        cases hc
      · rw [List.mem_singleton.mp hm'] at hm
        rw [heof (.inr hm)] at hc
        cases hc
    · obtain ⟨m', ms, hm', hc', hms⟩ := h.confirmed (hopen ho)
      refine ⟨m', ms ++ [m], by rw [hsent, hm']; rfl, hc', ?_⟩
      rw [List.forall_mem_append]
      refine ⟨hms, fun m'' hm'' => ?_⟩
      rw [List.mem_singleton.mp hm'']
      exact hconfirm

namespace Session

/-- The messages written for channel `o`. -/
def written (s : Session) (o : Nat) : List Message := sentOf (mine o s.log)

/-- The messages that came in for channel `o`. -/
def received (s : Session) (o : Nat) : List Message := gotOf (mine o s.log)

/-- Channel `o` was made for an OpenMessage. -/
def Accepted (s : Session) (o : Nat) : Prop := ∃ m ∈ s.received o, m.isOpen = true

variable {s : Session}

theorem target_handle {a : Act} {o p : Nat} {m : Message} (h : s.target a = some (o, .handle p m)) :
    a = .decoded (.ok m) ∧ m.isOpen = false := by
  rcases target_cases h with ⟨len, -, h⟩ | ⟨buf, -, h⟩ | ⟨-, h⟩ | ⟨-, h⟩ | ⟨i, t, -, -, h⟩ | ⟨m', ha, hm, -, h⟩
  all_goals cases h
  exact ⟨ha, hm⟩

theorem Run.spoken {ok : Session → Act → Prop} (run : Run step ok new s) {o : Nat}
    (ho : o < s.chans.length) : Spoken (s.view o) := by
  refine view_invariant (I := Spoken) ?_ ?_ ?_ ?_ ?_ run ho
  · intro s _
    refine ⟨List.pairwise_singleton _ _, ?_, ?_, ?_⟩
    · intro _ m hm
      rw [List.mem_singleton.mp hm]
      rfl
    · intro _ m hm
      rw [List.mem_singleton.mp hm]
      rfl
    · rintro ⟨m, hm, -⟩
      cases hm
  · intro s senderID windowSize maxPacketSize waiter _ _
    refine ⟨List.pairwise_singleton _ _, ?_, ?_, fun _ => ⟨_, [], rfl, rfl, by simp⟩⟩
    · intro _ m hm
      rw [List.mem_singleton.mp hm]
      rfl
    · intro _ m hm
      rw [List.mem_singleton.mp hm]
      rfl
  · intro s a o call _ _ ht _ h
    exact h.enter fun p m hm => (target_handle (hm ▸ ht)).2
  · intro s a o _ _ h
    have hshut : Spoken ((s.view o).enter .shutdown) := h.enter (by intro p m hm; cases hm)
    rw [View.shut]
    split
    · exact ⟨hshut.order, hshut.unclosed, hshut.open_, hshut.confirmed⟩
    · exact ⟨h.order, h.unclosed, h.open_, h.confirmed⟩
  · intro s o p h
    exact ⟨h.order, h.unclosed, h.open_, h.confirmed⟩

theorem Spoken.silent_behind {out pre post : List Message} {m : Message}
    (h : out.Pairwise MayFollow) (heq : out = pre ++ m :: post) : ∀ m' ∈ post, MayFollow m m' := by
  rw [heq, List.pairwise_append, List.pairwise_cons] at h
  exact h.2.1.1

/-- **The output of a channel.** In every state that any messages, calls and tasks in any
order lead to, and for every channel: an accepted channel has written its OpenConfirm before
anything else, at most one Close is written, nothing behind it, and no data behind an Eof. -/
theorem output_language (run : Run step anyStep new s) (o : Nat) :
    (s.Accepted o → ∃ m ms, s.written o = m :: ms ∧ m.isConfirm = true ∧
      ∀ m' ∈ ms, m'.isConfirm = false) ∧
    ((s.written o).filter Message.isClose).length ≤ 1 ∧
    (∀ pre m post, s.written o = pre ++ m :: post → m.isClose = true → post = []) ∧
    (∀ pre m post, s.written o = pre ++ m :: post → m.isEof = true →
      ∀ m' ∈ post, m'.isData = false) := by
  by_cases ho : o < s.chans.length
  · have h := Run.spoken run ho
    have hlast : ∀ pre m post, s.written o = pre ++ m :: post → m.isClose = true → post = [] := by
      intro pre m post heq hm
      cases post with
      | nil => rfl
      | cons m' post =>
        have hfollow := Spoken.silent_behind h.order heq m' List.mem_cons_self
        rw [hfollow.1] at hm
        cases hm
    refine ⟨h.confirmed, ?_, hlast, fun pre m post heq hm m' hm' =>
      (Spoken.silent_behind h.order heq m' hm').2 hm⟩
    have hclose : ∀ m ∈ (s.written o).filter Message.isClose, m.isClose = true :=
      fun m hm => (List.mem_filter.mp hm).2
    have horder := List.Pairwise.filter Message.isClose h.order
    generalize hf : (s.written o).filter Message.isClose = closes at hclose
    have hf' : (sentOf (s.view o).log).filter Message.isClose = closes := hf
    rw [hf'] at horder
    cases closes with
    | nil => exact Nat.zero_le _
    | cons m closes =>
      cases closes with
      | nil => exact Nat.le_refl _
      | cons m' closes =>
        have hfollow := (List.pairwise_cons.mp horder).1 m' List.mem_cons_self
        have hm := hclose m List.mem_cons_self
        rw [hfollow.1] at hm
        cases hm
  · have hnil : s.written o = [] := by
      rw [written, ((Run.numbered run).fresh o (Nat.le_of_not_lt ho)).1]
      rfl
    have hnil' : s.received o = [] := by
      rw [received, ((Run.numbered run).fresh o (Nat.le_of_not_lt ho)).1]
      rfl
    rw [hnil, Accepted, hnil']
    refine ⟨by simp, by simp, ?_, ?_⟩
    · intro pre m post heq
      simp at heq
    · intro pre m post heq
      simp at heq

/-- An accepted channel that is written on, ended and closed while the peer closes as well. -/
theorem output_language_run :
    ∃ s, Run step anyStep new s ∧
      s.written 0 = [.openConfirm 7 0 channelWindowSize channelMaxPacket, .data 7 1 [5], .eof 7,
        .close 7] ∧ ((s.written 0).filter Message.isClose).length ≤ 1 := by
  obtain ⟨s, run, hs⟩ := Run.of_exec step anyStep new
    [.accept, .decoded (.ok (.openMsg 7 100 32768)), .write 0 [5], .closeWrite 0, .write 0 [6],
     .close 0, .decoded (.ok (.close 0)), .resume 0, .write 0 [7]]
    (fun s => decide (s.written 0 = [.openConfirm 7 0 channelWindowSize channelMaxPacket,
      .data 7 1 [5], .eof 7, .close 7])) (by decide +kernel)
  simp only [decide_eq_true_eq] at hs
  exact ⟨s, run, hs, (output_language run 0).2.1⟩

end Session

end Qtalk.Js
