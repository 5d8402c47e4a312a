import Qtalk.Mux.Loop

/-!
# How channels change

Every step of a session changes a channel object by one of the moves of `Channel.Move`, or
not at all (`Inv.changes`). `channel_invariant` is the induction rule that follows: what
new channels have and the moves keep, every channel has in every run.
-/

namespace Qtalk.Mux
open Qtalk.Codec Qtalk.Lib

namespace Session

variable {s s' : Session}

/-- The channel object an operation of the loop works on. -/
def opTarget : LoopOp → Option Nat
  | .publish c | .confirm c | .queue c _ | .reply c | .eof c | .closeMsg c | .markClosed c
  | .closeWin c => some c
  | .reject _ | .remove _ | .dropAll | .connClose | .signal | .setErr _ => none

/-- As whom a step of the session changes channel `c`. -/
inductive By (s : Session) (c : Nat) : Act → Channel.Actor → Prop where
  | call (a : Channel.Step) : By s c (.call c a) (.call a)
  | accept : By s c .accept .accept
  | recv {m : Message} (ho : s.ops = []) (hm : m.channel.2 = true)
      (hg : s.chanList.getChan m.channel.1 = some c) : By s c (.recv (.ok m)) (.recv m)
  | op {o : LoopOp} {ops : List LoopOp} (ok : Bool) (ho : s.ops = o :: ops)
      (hc : opTarget o = some c) : By s c (.loop ok) (.op o)

/-- The messages among some packets that were sent for channel object `c`. -/
def sentBy (c : Nat) (out : List Packet) : List Message :=
  (out.filter (·.src = some c)).map Packet.msg

/-- What a step does to a channel object, and what it sends for it. -/
inductive Changes (s s' : Session) (a : Act) (out : List Packet) (c : Nat) : Prop where
  | none (hh : s'.heap c = s.heap c) (hs : sentBy c out = [])
  | move {who : Channel.Actor} {ms : List Message} {ch : Channel} (hby : By s c a who)
      (hm : Channel.Move (s.heap c) who ms ch) (hh : s'.heap c = ch.sends ms)
      (hs : sentBy c out = ms)

theorem sentBy_emit (s : Session) (c : Nat) (r : Channel × List Message) (c' : Nat) :
    sentBy c' (s.emit c r).2 = if c' = c then r.2 else [] := by
  simp only [sentBy, emit]
  split
  · next h => subst h; simp [List.filter_map, Function.comp_def]
  · next h => simp [List.filter_map, Function.comp_def, Ne.symm h]

theorem sentBy_singleton (c : Nat) (m : Message) (c' : Nat) :
    sentBy c' [⟨some c, m⟩] = if c' = c then [m] else [] := by
  simp only [sentBy, List.filter_cons, Option.some.injEq, List.filter_nil, eq_comm]
  by_cases h : c = c' <;> simp [h]

/-- A step that overwrites one channel object. -/
theorem changes_put {a : Act} {out : List Packet} {c : Nat} {who : Channel.Actor}
    {ms : List Message} {ch : Channel} (hheap : s'.heap = Function.update s.heap c (ch.sends ms))
    (hout : ∀ c', sentBy c' out = if c' = c then ms else []) (hby : By s c a who)
    (hm : Channel.Move (s.heap c) who ms ch) (c' : Nat) : Changes s s' a out c' := by
  by_cases h : c' = c
  · subst h
    exact .move hby hm (by rw [hheap, Function.update_self]) (by rw [hout, if_pos rfl])
  · exact .none (by rw [hheap, Function.update_of_ne h]) (by rw [hout, if_neg h])

/-- Every step changes each channel object by a move, or not at all. -/
theorem Inv.changes (h : s.Inv) {a : Act} {out : List Packet} (ht : Trans s a s' out) {c : Nat}
    (hc : c < s.fresh) : Changes s s' a out c := by
  have hok : ∀ op ops, s.ops = op :: ops → s.OpOk op := fun op ops ho => h.ops op (by simp [ho])
  cases ht with
  | register hl => exact .none (added_old s outboundChannel hc) rfl
  | @call c₀ a r hc₀ hstep =>
    exact changes_put rfl (sentBy_emit s c₀ r) (.call a) (.of_step hstep) c
  | @accept c₀ incoming hi =>
    have hd := (h.incoming c₀ (by rw [hi]; simp)).2
    exact changes_put (by simp) (by simp [sentBy]) .accept (.hold hd) c
  | acceptEOF hc => exact .none rfl rfl
  | close => exact .none rfl rfl
  | outOfRange hr ho => exact .none rfl rfl
  | undecoded hr ho he => exact .none rfl rfl
  | unknown hr ho hm hg => exact .none rfl rfl
  | refuse hr ho hm hg hh => exact .none rfl rfl
  | @handle m c₀ ch ops hr ho hf hm hg hh =>
    exact changes_put (by simp) (by simp [sentBy]) (.recv ho hm hg) (.of_handle hf hh) c
  | rejectOpen hr ho hm => exact .none rfl rfl
  | @handleOpen m hr ho hm hl => exact .none (added_old s (inboundChannel m) hc) rfl
  | publish ok ho hi => exact .none rfl rfl
  | @confirm c₀ ops ho =>
    obtain ⟨-, hd, hn⟩ := hok _ _ ho
    exact changes_put rfl (sentBy_singleton c₀ _) (.op true ho rfl)
      (.confirm c₀ hd hn) c
  | @confirmFailed c₀ ops ho =>
    obtain ⟨-, hd, hn⟩ := hok _ _ ho
    exact changes_put rfl (sentBy_singleton c₀ _) (.op false ho rfl)
      (.confirm c₀ hd hn) c
  | reject ho => exact .none rfl rfl
  | rejectFailed ho => exact .none rfl rfl
  | @queue c₀ m ops ok ho hc hq =>
    exact changes_put (by simp) (by simp [sentBy]) (.op ok ho rfl) (.queue c₀ (hok _ _ ho).2.1) c
  | queueClosed ok ho hc => exact .none rfl rfl
  | @reply c₀ ops ok ho =>
    exact changes_put rfl (sentBy_emit s c₀ _) (.op ok ho rfl) (.of_reply c₀ (hok _ _ ho).2) c
  | remove ok ho => exact .none rfl rfl
  | @eof c₀ ops ok ho =>
    exact changes_put (by simp) (by simp [sentBy]) (.op ok ho rfl) (.eof c₀) c
  | @closeMsg c₀ ops ok ho hc =>
    exact changes_put (by simp) (by simp [sentBy]) (.op ok ho rfl) (.closeMsg c₀) c
  | closeMsgTwice ok ho hc => exact .none rfl rfl
  | @markClosed c₀ ops ok ho =>
    exact changes_put (by simp) (by simp [sentBy]) (.op ok ho rfl) (.markClosed c₀) c
  | @closeWin c₀ ops ok ho =>
    have hs : (s.heap c₀).sentClose = true := by
      refine (hok _ _ ho).2.resolve_right fun hm => ?_
      have := h.order
      rw [ho, List.pairwise_cons] at this
      rw [ho, List.mem_cons] at hm
      rcases hm with hm | hm
      · cases hm
      · exact this.1 _ hm rfl
    exact changes_put (by simp) (by simp [sentBy]) (.op ok ho rfl) (.closeWin c₀ hs) c
  | dropAll ok ho => exact .none rfl rfl
  | connClose ok ho => exact .none rfl rfl
  | signal ok ho => exact .none rfl rfl
  | setErr ok ho => exact .none rfl rfl

theorem Changes.sent {a : Act} {out : List Packet} {c : Nat} (h : Changes s s' a out c) :
    (s'.heap c).sent = (s.heap c).sent ++ sentBy c out := by
  cases h with
  | none hh hs => rw [hh, hs, List.append_nil]
  | move _ hm hh hs => rw [hh, hs, Channel.sends, hm.sent_eq]

theorem Changes.extends {a : Act} {out : List Packet} {c : Nat} (h : Changes s s' a out c) :
    Channel.Extends (s.heap c) (s'.heap c) := by
  cases h with
  | none hh hs => rw [hh]; exact .refl _
  | move _ hm hh hs => rw [hh]; exact hm.extends

/-- Without a message a channel handles nothing. -/
theorem Changes.handled {a : Act} {out : List Packet} {c : Nat} (h : Changes s s' a out c)
    (ha : ∀ m, a ≠ .recv (.ok m)) : (s'.heap c).handled = (s.heap c).handled := by
  cases h with
  | none hh hs => rw [hh]
  | move hby hm hh hs =>
    rw [hh]
    cases hm
    case gotData | gotEOF | gotClose | gotAdjust | gotConfirm | gotConfirmOver | gotFailure =>
      cases hby
      exact absurd rfl (ha _)
    all_goals rfl

/-- The channel object a message is addressed to. -/
def dest (s : Session) (m : Message) : Option Nat :=
  if m.channel.2 then s.chanList.getChan m.channel.1 else none

theorem dest_eq_some {m : Message} {c : Nat} :
    s.dest m = some c ↔ m.channel.2 = true ∧ s.chanList.getChan m.channel.1 = some c := by
  rw [dest]
  split
  · next h => simp [h]
  · next h => simp [h]

/-- A message is handed to the channel it is addressed to, if that accepts it. -/
theorem Trans.handled {m : Message} {out : List Packet} (ht : Trans s (.recv (.ok m)) s' out)
    {c : Nat} (hd : s.dest m = some c) {r : Channel × List LoopOp}
    (hh : (s.heap c).handle c m = .ok r) :
    (s'.heap c).handled = (s.heap c).handled ++ [m] ∧ s'.running = s.running := by
  obtain ⟨hm, hg⟩ := dest_eq_some.mp hd
  cases ht with
  | unknown _ _ _ hg' => rw [hg] at hg'; cases hg'
  | @refuse _ c' _ _ _ _ hg' hh' =>
    obtain rfl := Option.some.inj (hg'.symm.trans hg)
    rw [hh] at hh'
    cases hh'
  | @handle _ c' ch ops _ _ _ _ hg' hh' =>
    obtain rfl := Option.some.inj (hg'.symm.trans hg)
    obtain ⟨-, -, hch, -⟩ := Channel.handle_ops hh'
    exact ⟨by simp [hch], rfl⟩
  | rejectOpen => cases hm
  | handleOpen => cases hm

/-- The other channels handle nothing. -/
theorem Trans.not_handled {m : Message} {out : List Packet} (ht : Trans s (.recv (.ok m)) s' out)
    {c : Nat} (hc : c < s.fresh) (hd : s.dest m ≠ some c) : s'.heap c = s.heap c := by
  cases ht with
  | unknown | refuse | rejectOpen => rfl
  | @handle _ c' ch ops _ _ _ hm hg _ =>
    have hne : c ≠ c' := fun heq => hd (dest_eq_some.mpr ⟨hm, heq ▸ hg⟩)
    exact Function.update_of_ne hne _ _
  | handleOpen => exact added_old s _ hc

/-- Whom the packets of a step come from. -/
theorem Inv.out_src (h : s.Inv) {a : Act} {out : List Packet} (ht : Trans s a s' out)
    (hr : ∀ id, .reject id ∉ s.ops) {p : Packet} (hp : p ∈ out) :
    ∃ c < s.fresh, p.src = some c ∧ p.msg ∈ sentBy c out := by
  have key : ∀ c < s.fresh, p.src = some c → ∃ c < s.fresh, p.src = some c ∧ p.msg ∈ sentBy c out :=
    fun c hc hs => ⟨c, hc, hs, List.mem_map_of_mem (List.mem_filter.mpr ⟨hp, by simpa using hs⟩)⟩
  cases ht with
  | @call c a r hc hstep =>
    obtain ⟨m, -, rfl⟩ := List.mem_map.mp hp
    exact key c hc rfl
  | @confirm c ops ho =>
    refine key c (h.ops (.confirm c) (by simp [ho])).1 ?_
    rw [List.mem_singleton.mp hp]
  | @confirmFailed c ops ho =>
    refine key c (h.ops (.confirm c) (by simp [ho])).1 ?_
    rw [List.mem_singleton.mp hp]
  | @reply c ops ok ho =>
    obtain ⟨m, -, rfl⟩ := List.mem_map.mp hp
    exact key c (h.ops (.reply c) (by simp [ho])).1 rfl
  | @reject id ops ho => exact absurd (by simp [ho]) (hr id)
  | @rejectFailed id ops ho => exact absurd (by simp [ho]) (hr id)
  | _ => cases hp

/-- Only an `OpenMessage` with a bad packet size is rejected. -/
theorem Trans.rejects {a : Act} {out : List Packet} (ht : Trans s a s' out)
    {id : UInt32} (hid : .reject id ∈ s'.ops) : .reject id ∈ s.ops ∨
      ∃ m, a = .recv (.ok (.openMsg m)) ∧
        (m.maxPacketSize < minPacketLength ∨ m.maxPacketSize > maxPacketLength) := by
  cases ht with
  | rejectOpen hr ho hm => exact .inr ⟨_, rfl, hm⟩
  | undecoded | unknown | refuse | confirmFailed | rejectFailed =>
    simp [Session.exit, exitOps] at hid
  | @handle m c ch ops hr ho hf hm hg hh =>
    obtain ⟨-, -, -, rfl | ⟨m', rfl, rfl⟩ | ⟨m', rfl, rfl⟩ | ⟨m', rfl, rfl⟩⟩ := Channel.handle_ops hh <;>
      simp [closeOps] at hid
  | handleOpen => simp at hid
  | @dropAll ops ok ho =>
    left
    rw [ho]
    simpa [closeOps] using hid
  | publish ok ho | confirm ho | reject ho | queue ok ho | queueClosed ok ho | reply ok ho
  | remove ok ho | eof ok ho | closeMsg ok ho | closeMsgTwice ok ho | markClosed ok ho
  | closeWin ok ho | connClose ok ho | signal ok ho | setErr ok ho =>
    rw [ho]
    exact .inl (List.mem_cons_of_mem _ hid)
  | _ => exact .inl hid

/-- The channel objects a step creates. -/
theorem Trans.fresh {a : Act} {out : List Packet} (ht : Trans s a s' out) :
    s'.fresh = s.fresh ∨
      (s'.fresh = s.fresh + 1 ∧
        ((a = .register ∧ ∃ id, s'.heap s.fresh = outboundChannel id) ∨
          ∃ m id, a = .recv (.ok (.openMsg m)) ∧ s'.heap s.fresh = inboundChannel m id)) := by
  cases ht
  case register hl => exact .inr ⟨rfl, .inl ⟨rfl, _, added_new s outboundChannel⟩⟩
  case handleOpen m _ _ _ _ => exact .inr ⟨rfl, .inr ⟨m, _, rfl, added_new s (inboundChannel m)⟩⟩
  all_goals exact .inl rfl

/-- What new channels have and every step that moves a channel keeps, under the condition on
the steps of the run, all channels have. -/
theorem channel_step_invariant {ok : Session → Act → Prop} {P : Channel → Prop}
    (outbound : ∀ id, P (outboundChannel id)) (inbound : ∀ m id, P (inboundChannel m id))
    (move : ∀ (s s' : Session) (a : Act) (out : List Packet) (c : Nat) (who : Channel.Actor)
      (ms : List Message) (ch : Channel), Run next ok newSession s → c < s.fresh → ok s a →
      Trans s a s' out → By s c a who → P (s.heap c) → Channel.Move (s.heap c) who ms ch →
      s'.heap c = ch.sends ms → P (ch.sends ms))
    (run : Run next ok newSession s) : ∀ c < s.fresh, P (s.heap c) := by
  refine Run.invariant (I := fun s => ∀ c < s.fresh, P (s.heap c))
    (fun c hc => absurd hc (Nat.not_lt_zero c)) (fun s a s' hr hp hok hn c hc => ?_) run
  have hi := Inv.of_run hr
  obtain ⟨out, ht⟩ := exists_trans hn
  have old : c < s.fresh → P (s'.heap c) := by
    intro hlt
    cases hi.changes ht hlt with
    | none hh _ => rw [hh]; exact hp c hlt
    | move hby hm hh _ =>
      have hmoved := move s s' a out c _ _ _ hr hlt hok ht hby (hp c hlt) hm hh
      rw [hh]
      exact hmoved
  rcases ht.fresh with heq | ⟨heq, hnew⟩
  · exact old (heq ▸ hc)
  · rw [heq] at hc
    rcases Nat.lt_succ_iff_lt_or_eq.mp hc with hlt | rfl
    · exact old hlt
    · rcases hnew with ⟨-, id, hnew⟩ | ⟨m, id, -, hnew⟩
      · rw [hnew]; exact outbound id
      · rw [hnew]; exact inbound m id

/-- What new channels have and every move keeps, all channels have. -/
theorem channel_invariant {ok : Session → Act → Prop} {P : Channel → Prop}
    (outbound : ∀ id, P (outboundChannel id)) (inbound : ∀ m id, P (inboundChannel m id))
    (move : ∀ (s : Session) (a : Act) (c : Nat) (who : Channel.Actor) (ms : List Message)
      (ch : Channel), Run next ok newSession s → c < s.fresh → ok s a → By s c a who →
      P (s.heap c) → Channel.Move (s.heap c) who ms ch → P (ch.sends ms))
    (run : Run next ok newSession s) : ∀ c < s.fresh, P (s.heap c) :=
  channel_step_invariant outbound inbound
    (fun s _ a _ c who ms ch hr hc hok _ hby hp hm _ => move s a c who ms ch hr hc hok hby hp hm) run

end Session

end Qtalk.Mux
