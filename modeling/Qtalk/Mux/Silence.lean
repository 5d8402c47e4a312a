import Qtalk.Mux.Changes

/-!
# After the last message

A `CloseMessage` should be the last message of a channel and an `EOFMessage` the end of
its data. `send` sees to that under `writeMu`; the packets of `Write` and the
`OpenConfirmMessage` do not go through `send`. So it takes an application that keeps out
of the way: `TidyClose` and `TidyEOF` say how, and `silence` that this is enough.
-/

namespace Qtalk.Mux
open Qtalk.Codec Qtalk.Lib

/-- Nothing addressed to the peer's channel follows a `CloseMessage`. -/
def ClosedSilent (l : List Message) : Prop :=
  l.Pairwise fun m m' => m.isClose = true → m'.channel.2 = false

/-- No data follows an `EOFMessage`. -/
def EOFSilent (l : List Message) : Prop :=
  l.Pairwise fun m m' => m.isEOF = true → m'.isData = false

instance (l : List Message) : Decidable (ClosedSilent l) := by unfold ClosedSilent; infer_instance
instance (l : List Message) : Decidable (EOFSilent l) := by unfold EOFSilent; infer_instance

theorem pairwise_snoc {R : Message → Message → Prop} {l : List Message} {m : Message}
    (h : l.Pairwise R) (hm : ∀ m' ∈ l, R m' m) : (l ++ [m]).Pairwise R := by
  rw [List.pairwise_append]
  refine ⟨h, List.pairwise_singleton R m, fun a ha b hb => ?_⟩
  rw [List.mem_singleton] at hb
  exact hb ▸ hm a ha

theorem any_false {p : Message → Bool} {l : List Message} (h : l.any p = false) :
    ∀ m ∈ l, ¬ p m = true := by
  simpa using h

namespace Channel

/-- No `Write` in progress stands between `reserve` and `Encode`. -/
def Settled (ch : Channel) : Prop := ∀ w ∈ ch.writes, w.granted = none

/-- `reserve` of `Write` number `k` will not let it go on to send. -/
def Barred (ch : Channel) (k : Nat) : Prop :=
  ch.remoteWin.closed = true ∨ ∀ w ∈ ch.writes[k]?, w.data = []

instance (ch : Channel) : Decidable ch.Settled := by unfold Settled; infer_instance
instance (ch : Channel) (k : Nat) : Decidable (ch.Barred k) := by unfold Barred; infer_instance

/-- The channel is closed by `Close` while no granted packet is on its way and after its
confirmation, and nothing is granted afterwards. -/
def TidyClose (ch : Channel) : Step → Prop
  | .close => ch.sentClose = false →
    ch.Settled ∧ (ch.direction = .inbound → ch.sent.any Message.isConfirm = true)
  | .reserve k => ch.sent.any Message.isClose = true → ch.Barred k
  | _ => True

/-- The end of the data is sent while no granted packet is on its way, and nothing is
granted afterwards. -/
def TidyEOF (ch : Channel) : Step → Prop
  | .sendEOF => ch.sentClose = false → ch.Settled
  | .reserve k => ch.sent.any Message.isEOF = true → ch.Barred k
  | _ => True

instance (ch : Channel) (a : Step) : Decidable (ch.TidyClose a) := by
  unfold TidyClose; split <;> infer_instance

instance (ch : Channel) (a : Step) : Decidable (ch.TidyEOF a) := by
  unfold TidyEOF; split <;> infer_instance

theorem Settled.set {ch : Channel} (h : ch.Settled) {k : Nat} {w w' : WriteCall}
    (hw : w.granted = none) (hm : w' ∈ ch.writes.set k w) : w'.granted = none := by
  rcases List.mem_or_eq_of_mem_set hm with hm | rfl
  · exact h w' hm
  · exact hw

theorem Settled.eraseIdx {ch : Channel} (h : ch.Settled) {k : Nat} {w : WriteCall}
    (hm : w ∈ ch.writes.eraseIdx k) : w.granted = none :=
  h w (List.mem_of_mem_eraseIdx hm)

theorem Settled.append {ch : Channel} (h : ch.Settled) {data : List UInt8} {w : WriteCall}
    (hm : w ∈ ch.writes ++ [⟨[], data, none⟩]) : w.granted = none := by
  rcases List.mem_append.mp hm with hm | hm
  · exact h w hm
  · rw [List.mem_singleton.mp hm]

theorem Settled.not_granted {ch : Channel} (h : ch.Settled) {k : Nat} {w : WriteCall} {g : UInt32}
    (hk : ch.writes[k]? = some w) : w.granted ≠ some g := by
  rw [h w (List.mem_of_getElem? hk)]
  nofun

theorem Barred.not_granted {ch : Channel} {k : Nat} {w : WriteCall} {n g : UInt32} {win : Window}
    (h : ch.Barred k) (hk : ch.writes[k]? = some w) (hd : w.data ≠ [])
    (hr : ch.remoteWin.reserve n = some (g, false, win)) : False := by
  obtain ⟨-, -, hcl, -⟩ := Window.reserve_eq_some hr
  rcases h with h | h
  · rw [h] at hcl; cases hcl
  · exact hd (h w hk)

/-- What holds of a channel that is tidy about closing. -/
structure ClosesLast (ch : Channel) : Prop where
  silent : ClosedSilent ch.sent
  unsent : ch.sentClose = false → ch.sent.any Message.isClose = false
  settled : ch.sent.any Message.isClose = true → ch.Settled
  confirmed : ch.direction = .inbound → ch.sent.any Message.isClose = true →
    ch.sent.any Message.isConfirm = true

/-- A change that sends nothing, and grants nothing on a closed channel. -/
theorem ClosesLast.quiet {ch ch' : Channel} (h : ch.ClosesLast)
    (hdir : ch'.direction = ch.direction) (hsent : ch'.sent = ch.sent)
    (hclose : ch'.sentClose = false → ch.sentClose = false)
    (hsettled : ch.sent.any Message.isClose = true → ch.Settled → ch'.Settled) :
    (ch'.sends []).ClosesLast := by
  rw [sends_nil]
  refine ⟨by rw [hsent]; exact h.silent, fun hc => ?_, fun hc => ?_, ?_⟩
  · rw [hsent]; exact h.unsent (hclose hc)
  · rw [hsent] at hc; exact hsettled hc (h.settled hc)
  · rw [hdir, hsent]; exact h.confirmed

/-- A change that sends one message other than `CloseMessage`, before any. -/
theorem ClosesLast.sendsOne {ch ch' : Channel} {m : Message} (h : ch.ClosesLast)
    (hdir : ch'.direction = ch.direction) (hsent : ch'.sent = ch.sent)
    (hclose : ch'.sentClose = ch.sentClose) (hwrites : ch.Settled → ch'.Settled)
    (hm : m.isClose = false) (hopen : m.channel.2 = false ∨ ch.sent.any Message.isClose = false) :
    (ch'.sends [m]).ClosesLast := by
  refine ⟨?_, fun hc => ?_, fun hc => ?_, fun hd hc => ?_⟩
  · refine pairwise_snoc (hsent ▸ h.silent) fun m' hm' hcl => ?_
    rw [hsent] at hm'
    exact hopen.resolve_right fun ho => any_false ho m' hm' hcl
  · simpa [sends, hsent, hm] using h.unsent (hclose ▸ hc)
  · have hc' : ch.sent.any Message.isClose = true := by simpa [sends, hsent, hm] using hc
    exact hwrites (h.settled hc')
  · have hc' : ch.sent.any Message.isClose = true := by simpa [sends, hsent, hm] using hc
    have := h.confirmed (hdir ▸ hd) hc'
    simp only [sends, hsent, List.any_append, this, Bool.true_or]

theorem ClosesLast.sendsClose {ch : Channel} {id : UInt32} (h : ch.ClosesLast)
    (hs : ch.sentClose = false) (hset : ch.Settled)
    (hconf : ch.direction = .inbound → ch.sent.any Message.isConfirm = true) :
    ({ ch with sentClose := true }.sends [.close ⟨id⟩]).ClosesLast := by
  refine ⟨?_, nofun, fun _ => hset, fun hd _ => ?_⟩
  · exact pairwise_snoc h.silent fun m' hm' hcl => absurd hcl (any_false (h.unsent hs) m' hm')
  · simp only [sends, List.any_append, hconf hd, Bool.true_or]

/-- What holds of a channel that is tidy about the end of its data. -/
structure EOFLast (ch : Channel) : Prop where
  silent : EOFSilent ch.sent
  settled : ch.sent.any Message.isEOF = true → ch.Settled

theorem EOFLast.quiet {ch ch' : Channel} (h : ch.EOFLast) (hsent : ch'.sent = ch.sent)
    (hsettled : ch.sent.any Message.isEOF = true → ch.Settled → ch'.Settled) :
    (ch'.sends []).EOFLast := by
  rw [sends_nil]
  refine ⟨by rw [hsent]; exact h.silent, fun hc => ?_⟩
  rw [hsent] at hc
  exact hsettled hc (h.settled hc)

/-- A change that sends one message other than `EOFMessage`; data only before any. -/
theorem EOFLast.sendsOne {ch ch' : Channel} {m : Message} (h : ch.EOFLast)
    (hsent : ch'.sent = ch.sent) (hwrites : ch.Settled → ch'.Settled) (hm : m.isEOF = false)
    (hdata : m.isData = false ∨ ch.sent.any Message.isEOF = false) :
    (ch'.sends [m]).EOFLast := by
  refine ⟨?_, fun hc => ?_⟩
  · refine pairwise_snoc (hsent ▸ h.silent) fun m' hm' heof => ?_
    rw [hsent] at hm'
    exact hdata.resolve_right fun ho => any_false ho m' hm' heof
  · have hc' : ch.sent.any Message.isEOF = true := by simpa [sends, hsent, hm] using hc
    exact hwrites (h.settled hc')

end Channel

namespace Session

/-- The application is tidy about closing channels, and finds the channel settled when the
loop answers a `CloseMessage`. -/
def TidyClose (s : Session) : Act → Prop
  | .call c a => (s.heap c).TidyClose a
  | .loop _ =>
    match s.ops with
    | .reply c :: _ => (s.heap c).sentClose = false → (s.heap c).Settled
    | _ => True
  | _ => True

def TidyEOF (s : Session) : Act → Prop
  | .call c a => (s.heap c).TidyEOF a
  | _ => True

instance (s : Session) (a : Act) : Decidable (s.TidyClose a) := by
  unfold TidyClose; repeat' split
  all_goals infer_instance

instance (s : Session) (a : Act) : Decidable (s.TidyEOF a) := by
  unfold TidyEOF; split <;> infer_instance

variable {s : Session}

theorem closesLast_move {a : Act} {c : Nat} {who : Channel.Actor} {ms : List Message}
    {ch : Channel} (hi : s.Inv) (hc : c < s.fresh) (htidy : s.TidyClose a) (hby : s.By c a who)
    (h : (s.heap c).ClosesLast) (hm : Channel.Move (s.heap c) who ms ch) :
    (ch.sends ms).ClosesLast := by
  cases hm with
  | sendOpen ok ho => exact h.sendsOne rfl rfl rfl id rfl (.inl rfl)
  | confirm c' hd hn =>
    refine h.sendsOne rfl rfl rfl id rfl (.inr ?_)
    by_contra hcl
    rw [h.confirmed hd (by simpa using hcl)] at hn
    cases hn
  | write data hh hs => exact h.quiet rfl rfl id fun _ hset w hw => hset.append hw
  | writeDone hk hg hd => exact h.quiet rfl rfl id fun _ hset w hw => hset.eraseIdx hw
  | refused hk hg hr hd => exact h.quiet rfl rfl id fun _ hset w hw => hset.eraseIdx hw
  | granted hk hg hr hd =>
    cases hby
    exact h.quiet rfl rfl id fun hcl _ => ((htidy hcl).not_granted hk hd hr).elim
  | sendData hk hg =>
    refine h.sendsOne rfl rfl rfl (fun hset w hw => hset.set rfl hw) rfl (.inr ?_)
    by_contra hcl
    exact (h.settled (by simpa using hcl)).not_granted hk hg
  | sendFailed hk hg =>
    refine h.sendsOne rfl rfl rfl (fun hset w hw => hset.eraseIdx hw) rfl (.inr ?_)
    by_contra hcl
    exact (h.settled (by simpa using hcl)).not_granted hk hg
  | sendEOF hn hs => exact h.sendsOne rfl rfl rfl id rfl (.inr (h.unsent hs))
  | adjust hk hs => exact h.sendsOne rfl rfl rfl id rfl (.inr (h.unsent hs))
  | close hs hh =>
    cases hby
    obtain ⟨hset, hconf⟩ := htidy hs
    exact h.sendsClose hs hset hconf
  | reply c' hs hcl =>
    cases hby with
    | op ok ho hc' =>
      cases hc'
      -- the loop has confirmed the channel before it came to this packet
      have hconf : (s.heap c).direction = .inbound → (s.heap c).sent.any Message.isConfirm = true := by
        intro hd
        refine (hi.confirmed c hc hd).resolve_left fun hin => ?_
        have hord := hi.order
        rw [ho, List.pairwise_cons] at hord
        rw [ho, List.mem_cons] at hin
        rcases hin with hin | hin
        · cases hin
        · exact hord.1 _ hin
      simp only [TidyClose, ho] at htidy
      exact h.sendsClose hs (htidy hs) hconf
  | markClosed => exact h.quiet rfl rfl nofun fun _ => id
  | _ => exact h.quiet rfl rfl id fun _ => id

theorem closesLast (run : Run next TidyClose newSession s) :
    ∀ c < s.fresh, (s.heap c).ClosesLast :=
  channel_invariant
    (fun _ => ⟨.nil, fun _ => rfl, nofun, nofun⟩)
    (fun _ _ => ⟨.nil, fun _ => rfl, nofun, nofun⟩)
    (fun _ _ _ _ _ _ hr hc htidy hby h hm => closesLast_move (Inv.of_run hr) hc htidy hby h hm) run

theorem eofLast_move {a : Act} {c : Nat} {who : Channel.Actor} {ms : List Message} {ch : Channel}
    (htidy : s.TidyEOF a) (hby : s.By c a who) (h : (s.heap c).EOFLast)
    (hm : Channel.Move (s.heap c) who ms ch) : (ch.sends ms).EOFLast := by
  cases hm with
  | write data hh hs => exact h.quiet rfl fun _ hset w hw => hset.append hw
  | writeDone hk hg hd => exact h.quiet rfl fun _ hset w hw => hset.eraseIdx hw
  | refused hk hg hr hd => exact h.quiet rfl fun _ hset w hw => hset.eraseIdx hw
  | granted hk hg hr hd =>
    cases hby
    exact h.quiet rfl fun heof _ => ((htidy heof).not_granted hk hd hr).elim
  | sendData hk hg =>
    refine h.sendsOne rfl (fun hset w hw => hset.set rfl hw) rfl (.inr ?_)
    by_contra heof
    exact (h.settled (by simpa using heof)).not_granted hk hg
  | sendFailed hk hg =>
    refine h.sendsOne rfl (fun hset w hw => hset.eraseIdx hw) rfl (.inr ?_)
    by_contra heof
    exact (h.settled (by simpa using heof)).not_granted hk hg
  | sendEOF hn hs =>
    cases hby
    exact ⟨pairwise_snoc h.silent fun _ _ _ => rfl, fun _ => htidy hs⟩
  | sendOpen | confirm | close | adjust | reply => exact h.sendsOne rfl id rfl (.inl rfl)
  | _ => exact h.quiet rfl fun _ => id

theorem eofLast (run : Run next TidyEOF newSession s) : ∀ c < s.fresh, (s.heap c).EOFLast :=
  channel_invariant (fun _ => ⟨.nil, nofun⟩) (fun _ _ => ⟨.nil, nofun⟩)
    (fun _ _ _ _ _ _ _ _ htidy hby h hm => eofLast_move htidy hby h hm) run

/-- Both kinds of tidiness. -/
def Tidy (s : Session) (a : Act) : Prop := s.TidyClose a ∧ s.TidyEOF a

instance (s : Session) (a : Act) : Decidable (s.Tidy a) := inferInstanceAs (Decidable (_ ∧ _))

/-- In a tidy run nothing follows a channel's `CloseMessage`, and no data its
`EOFMessage`. -/
theorem silence (run : Run next Tidy newSession s) :
    ∀ c < s.fresh, ClosedSilent (s.heap c).sent ∧ EOFSilent (s.heap c).sent := fun c hc =>
  ⟨(closesLast (run.weaken fun _ _ h => h.1) c hc).silent,
    (eofLast (run.weaken fun _ _ h => h.2) c hc).silent⟩

/-- A `Write` that returns, the end of the data, `Close`, and a `Write` that comes too late. -/
theorem silence_run : ∃ s : Session,
    (s.heap 0).sent = [.openConfirm ⟨7, 0, 2097152, 32768⟩, .data ⟨7, 1, [5]⟩, .eof ⟨7⟩, .close ⟨7⟩] ∧
      ClosedSilent (s.heap 0).sent ∧ EOFSilent (s.heap 0).sent := by
  obtain ⟨s, hs, hp⟩ := Run.of_exec next Tidy newSession
    [.recv (.ok (.openMsg ⟨7, 100, 32768⟩)), .loop true, .loop true, .accept,
      .call 0 (.write [5]), .call 0 (.reserve 0), .call 0 (.sendData 0 true), .call 0 (.reserve 0),
      .call 0 .closeWrite, .call 0 .sendEOF, .call 0 .close, .call 0 (.write [6])]
    (fun s => s.fresh = 1 ∧ (s.heap 0).sent =
      [.openConfirm ⟨7, 0, 2097152, 32768⟩, .data ⟨7, 1, [5]⟩, .eof ⟨7⟩, .close ⟨7⟩])
    (by decide +kernel)
  simp only [decide_eq_true_eq] at hp
  exact ⟨s, hp.2, silence hs 0 (by omega)⟩

/-- `Write` has its grant when `Close` sends the `CloseMessage`; its data follows. -/
theorem data_after_Close : ¬ ∀ s, Run next anyStep newSession s →
    ∀ c < s.fresh, ClosedSilent (s.heap c).sent ∧ EOFSilent (s.heap c).sent := by
  intro h
  obtain ⟨s, hs, hp⟩ := Run.of_exec next anyStep newSession
    [.recv (.ok (.openMsg ⟨7, 100, 32768⟩)), .loop true, .loop true, .accept,
      .call 0 (.write [5]), .call 0 (.reserve 0), .call 0 .close, .call 0 (.sendData 0 true)]
    (fun s => 0 < s.fresh ∧ ¬ ClosedSilent (s.heap 0).sent) (by decide +kernel)
  simp only [decide_eq_true_eq] at hp
  exact hp.2 (h s hs 0 hp.1).1

end Session

end Qtalk.Mux
