import Qtalk.Mux.Served
import Qtalk.System.Accepts

/-!
# Ids are never mixed up

Ids are freed and given out again at each side on its own. While the applications keep out
of the way of `Close` (`TidyClose`) and use an accepted channel only after its
confirmation (`UsesConfirmed`), every message in flight still finds the channel it is
meant for, and neither session ends.
-/

namespace Qtalk.Mux
open Qtalk.Codec Qtalk.Lib

theorem Channel.ConfirmsFirst.heralded {ch : Channel} (h : ch.ConfirmsFirst) :
    Channel.Heralded ch.sent := by
  rintro l m ⟨t, ht⟩ hm
  cases l with
  | nil =>
    have := h.first m (by rw [← ht]; rfl)
    cases m with
    | close => cases this
    | _ => cases hm
  | cons a l =>
    have := h.first a (by rw [← ht]; rfl)
    rw [List.any_cons, this, Bool.true_or]

namespace Session

variable {s s' : Session} {b : Act} {out : List Packet} {c : Nat}

theorem Changes.close (h : Changes s s' b out c)
    (hc : (s'.heap c).sent.any Message.isClose = true) :
    (s.heap c).sent.any Message.isClose = true ∨ b = .call c .close ∨
      (s.heap c).handled.any Message.isClose = true := by
  cases h with
  | none hh _ => exact .inl (hh ▸ hc)
  | move hby hm hh _ =>
    rw [hh] at hc
    cases hm with
    | close => cases hby; exact .inr (.inl rfl)
    | reply _ _ hcl => exact .inr (.inr hcl)
    | _ =>
      left
      simpa [Channel.sends, Channel.writeReturn, Channel.CloseWrite, Channel.confirmMessage,
        Channel.dataMessage, Message.isClose] using hc

theorem Changes.writes (h : Changes s s' b out c) (hw : (s.heap c).writes = []) :
    (s'.heap c).writes = [] ∨ ∃ data, b = .call c (.write data) := by
  cases h with
  | none hh _ => exact .inl (hh ▸ hw)
  | move hby hm hh _ =>
    rw [hh]
    cases hm with
    | write data => cases hby; exact .inr ⟨data, rfl⟩
    | _ => left; simp [Channel.sends, Channel.writeReturn, Channel.CloseWrite, hw]

end Session

namespace System

variable {y y' : System} {a : Act} {x : Side} {c d : Nat}

/-- The applications use accepted channels only after their confirmation. -/
def UsesConfirmed (y : System) : Act → Prop
  | .app x b => (y.sess x).UsesConfirmed b
  | .deliver _ => True

instance (y : System) : ∀ a, Decidable (UsesConfirmed y a)
  | .app x b => inferInstanceAs (Decidable ((y.sess x).UsesConfirmed b))
  | .deliver _ => .isTrue trivial

/-- The applications of both sides keep out of the way. -/
def Considerate (y : System) : Act → Prop
  | .app x a => (y.sess x).TidyClose a ∧ (y.sess x).UsesConfirmed a
  | .deliver _ => True

instance (y : System) : ∀ a, Decidable (Considerate y a)
  | .app x a => inferInstanceAs (Decidable ((y.sess x).TidyClose a ∧ (y.sess x).UsesConfirmed a))
  | .deliver _ => .isTrue trivial

section Local

variable (run : Run next Considerate start y) (hc : c < (y.sess x).fresh)

include run hc

theorem closesLast : (y.chan x c).ClosesLast :=
  Session.closesLast (session_run (fun _ _ _ h => h.1) (fun _ _ => trivial) run x) c hc

theorem confirmsFirst (hd : (y.chan x c).direction = .inbound) : (y.chan x c).ConfirmsFirst :=
  Session.confirmsFirst (session_run (fun _ _ _ h => h.2) (fun _ _ => trivial) run x) c hc hd

end Local

/-- Every channel is connected to its peer, and both sessions are alive. -/
structure Routed (y : System) : Prop where
  fifo : ∀ x, ∀ c < (y.sess x).fresh, (y.chan x c).direction = .outbound → Fifo y x c
  running : ∀ x, (y.sess x).running = true
  connected : ∀ x, (y.sess x).connClosed = false

theorem Routed.joined (h : Routed y) (hw : y.Wired) (hp : y.peer x c = some d) : Joined y x c d := by
  obtain ⟨hc, hd⟩ := hw.lt x c d hp
  cases hdir : (y.chan x c).direction with
  | outbound => exact (h.fifo x c hc hdir).joined hp
  | inbound =>
    have hdir' := (hw.inbound_iff hp).mp hdir
    have := ((h.fifo x.other d hd hdir').joined (hw.symm x c d hp)).symm hw
    rwa [Side.other_other] at this

/-- The application does not end its session. -/
theorem alive_app {s s' : Session} {b : Session.Act} {out : List Packet} (hi : s.Inv)
    (ht : Session.Trans s b s' out) (hr : reliable s b = true) (hrun : s.running = true)
    (hconn : s.connClosed = false) : s'.running = true ∧ s'.connClosed = false := by
  cases ht with
  | close => cases hr
  | outOfRange | undecoded | unknown | refuse => cases hr
  | confirmFailed | rejectFailed =>
    rw [reliable, hconn] at hr
    cases hr
  | @connClose ops ok ho =>
    have : s.running = false := hi.ops .connClose (by simp [ho])
    rw [this] at hrun
    cases hrun
  | _ => exact ⟨hrun, hconn⟩

/-- Nor does a message that is accepted. -/
theorem alive_recv {s s' : Session} {m : Message} {out : List Packet}
    (ht : Session.Trans s (.recv (.ok m)) s' out) (hrun : s.running = true)
    (hconn : s.connClosed = false)
    (h : m.channel.2 = true → ∃ c r, s.dest m = some c ∧ (s.heap c).handle c m = .ok r) :
    s'.running = true ∧ s'.connClosed = false := by
  cases ht with
  | unknown _ _ hm hg =>
    obtain ⟨c, r, hd, -⟩ := h hm
    rw [(Session.dest_eq_some.mp hd).2] at hg
    cases hg
  | refuse _ _ hm hg hh =>
    obtain ⟨c, r, hd, hr⟩ := h hm
    rw [(Session.dest_eq_some.mp hd).2] at hg
    cases hg
    rw [hr] at hh
    cases hh
  | _ => exact ⟨hrun, hconn⟩

section State

variable (run : Run next Considerate start y)

include run

theorem Joined.heralded (hj : Joined y x c d) (hdir : (y.chan x c).direction = .outbound) :
    Channel.Heralded (y.chan x c).handled := by
  have hj' := hj.symm (Wired.of_run run)
  have hin : (y.chan x.other d).direction = .inbound :=
    hj'.inbound_of run (by rwa [Side.other_other])
  exact (confirmsFirst run (hj.fresh run).2 hin).heralded.mono hj.handled

/-- While something is in flight to a channel, its peer has not closed. -/
theorem Joined.live (hj : Joined y x c d) {m : Message} (hm : m ∈ y.flow x c) :
    (y.chan x.other d).ended = false := by
  have hc := (hj.fresh run).1
  have haddr := hj.addressed run (hj.heralded run) hm
  have hsilent := (closesLast run hc).silent
  rw [ClosedSilent, ← hj.there, List.pairwise_append] at hsilent
  rw [Channel.ended, Bool.or_eq_false_iff]
  constructor <;> rw [List.any_eq_false] <;> intro m' hm' hp
  · have := hsilent.2.2 m' hm' m hm hp
    rw [haddr] at this
    cases this
  · exact any_false (spoken run hc).noFailure m' (hj.handled_peer.subset hm') hp

theorem Joined.carries_considerate (hj : Joined y x c d) : Carries y x c d := by
  refine hj.carries run (hj.heralded run) fun hne => ?_
  obtain ⟨m, hm⟩ := List.exists_mem_of_ne_nil _ hne
  exact hj.live run hm

variable (h : Routed y)

include h

/-- Whoever sent a message with a channel id that is in flight has a peer. -/
theorem Routed.sender {p : Packet} (hp : p ∈ y.wire x) (hm : p.msg.channel.2 = true) :
    ∃ c d, p.src = some c ∧ p.msg ∈ y.flow x c ∧ Joined y x c d := by
  have hw := Wired.of_run run
  obtain ⟨c, hc, hs, -⟩ := hw.known x p hp
  have hin : p.msg ∈ y.flow x c := Session.mem_sentBy.mpr (by rwa [← hs])
  cases hpeer : y.peer x c with
  | some d => exact ⟨c, d, hs, hin, h.joined hw hpeer⟩
  | none =>
    cases hdir : (y.chan x c).direction with
    | inbound =>
      obtain ⟨d, hd⟩ := hw.accepted x c hc hdir
      rw [hpeer] at hd
      cases hd
    | outbound =>
      obtain ⟨m, hopen⟩ := ((h.fifo x c hc hdir).alone hpeer).isOpen run hc hdir hin
      rw [hopen] at hm
      cases hm

/-- A message in flight finds the peer of its sender, under the id in it. -/
theorem Routed.dest (hj : Joined y x c d) {m : Message} (hm : m ∈ y.flow x c) :
    m.channel = ((y.chan x.other d).localId, true) ∧ (y.sess x.other).dest m = some d := by
  have haddr := hj.addressed run (hj.heralded run) hm
  refine ⟨haddr, Session.dest_eq_some.mpr ⟨by rw [haddr], ?_⟩⟩
  rw [haddr]
  exact hj.listed run (h.running _) (hj.live run hm)

/-- A message that is delivered comes from the peer. -/
theorem Routed.own : Own y x c a := by
  cases a with
  | app => trivial
  | deliver z =>
    rintro rfl p hp hdest
    obtain ⟨ps, hwire⟩ := List.head?_eq_some_iff.mp hp
    have hm := (Session.dest_eq_some.mp hdest).1
    obtain ⟨e, d, hs, hin, hj⟩ := h.sender run (p := p) (by rw [hwire]; exact List.mem_cons_self) hm
    have heq := (h.dest run hj hin).2
    rw [Side.other_other, hdest] at heq
    cases heq
    rw [hs, ← (Wired.of_run run).symm _ _ _ hj.peer, Side.other_other]

/-- The sessions go on. -/
theorem Routed.alive (hm : Moves y a y') (x : Side) :
    (y'.sess x).running = true ∧ (y'.sess x).connClosed = false := by
  have hrun := h.running x
  have hconn := h.connected x
  obtain ⟨out, -, hat⟩ := hm.side x
  cases hat with
  | still _ hs => rw [hs]; exact ⟨hrun, hconn⟩
  | app _ hr ht => exact alive_app (inv run x) ht hr hrun hconn
  | @recv p ps ha hwire ht =>
    have hp : p ∈ y.wire x.other := by rw [hwire]; exact List.mem_cons_self
    refine alive_recv ht hrun hconn fun hch => ?_
    obtain ⟨c, d, hs, hin, hj⟩ := h.sender run hp hch
    have hdest := (h.dest run hj hin).2
    have hflow : y.flow x.other c = p.msg :: Session.sentBy c ps := by
      rw [flow, hwire, Session.sentBy_cons, if_pos hs]
    obtain ⟨r, hr⟩ := hj.accepts run hflow
    rw [chan, Side.other_other] at hr
    rw [Side.other_other] at hdest
    exact ⟨d, r, hdest, hr⟩

theorem Routed.step (hm : Moves y a y') : Routed y' := by
  have hw := Wired.of_run run
  refine ⟨fun x c hc hd => ?_, fun x => (h.alive run hm x).1, fun x => (h.alive run hm x).2⟩
  refine Fifo.step run hw hm hc hd (fun hlt => h.fifo x c hlt ?_) (h.own run) fun d hp => ?_
  · obtain ⟨out, -, hat⟩ := hm.side x
    exact (hat.extends (inv run x) hlt).direction.symm.trans hd
  · have hj := h.joined hw hp
    exact ⟨h.own run, hj.carries_considerate run, (hj.symm hw).carries_considerate run⟩

end State

theorem Routed.of_run (run : Run next Considerate start y) : Routed y :=
  run.invariant ⟨fun _ _ hc => absurd hc (Nat.not_lt_zero _), fun _ => rfl, fun _ => rfl⟩
    fun _ _ _ hr h _ hn => h.step hr (.of_next hn)

/-! ## Orderly applications -/

/-- One of the two ends has sent its `CloseMessage`. -/
def ClosedByOne (y : System) (x : Side) (c : Nat) : Prop :=
  (y.chan x c).sent.any Message.isClose = true ∨
    ∃ d ∈ y.peer x c, (y.chan x.other d).sent.any Message.isClose = true

/-- All `Write` calls on a channel have returned before either end calls `Close`, and an
accepted channel is used only after its `OpenConfirmMessage` was encoded. -/
def Orderly (y : System) : Act → Prop
  | .app x (.call c .close) =>
    ((y.chan x c).writes = [] ∧ ∀ d ∈ y.peer x c, (y.chan x.other d).writes = []) ∧
      (y.sess x).UsesConfirmed (.call c .close)
  | .app x (.call c (.write data)) =>
    ¬ ClosedByOne y x c ∧ (y.sess x).UsesConfirmed (.call c (.write data))
  | .app x b => (y.sess x).UsesConfirmed b
  | .deliver _ => True

instance (y : System) (x : Side) (c : Nat) : Decidable (ClosedByOne y x c) :=
  decidable_of_iff ((y.chan x c).sent.any Message.isClose = true ∨
    ¬ ∀ d ∈ y.peer x c, ¬ (y.chan x.other d).sent.any Message.isClose = true) (by
      simp [ClosedByOne])

/-- The channel a step calls `Close` on. -/
def Act.closing : Act → Option (Side × Nat)
  | .app x (.call c .close) => some (x, c)
  | _ => none

/-- The channel a step calls `Write` on. -/
def Act.writing : Act → Option (Side × Nat)
  | .app x (.call c (.write _)) => some (x, c)
  | _ => none

theorem orderly_iff : Orderly y a ↔ UsesConfirmed y a ∧
    (∀ z ∈ a.closing, (y.chan z.1 z.2).writes = [] ∧
      ∀ d ∈ y.peer z.1 z.2, (y.chan z.1.other d).writes = []) ∧
    ∀ z ∈ a.writing, ¬ ClosedByOne y z.1 z.2 := by
  cases a with
  | deliver => simp [Orderly, UsesConfirmed, Act.closing, Act.writing]
  | app x b =>
    cases b with
    | call c b =>
      cases b <;> simp [Orderly, UsesConfirmed, Act.closing, Act.writing, and_comm]
    | _ => simp [Orderly, UsesConfirmed, Act.closing, Act.writing]

instance (y : System) (a : Act) : Decidable (Orderly y a) := decidable_of_iff _ orderly_iff.symm

theorem Orderly.usesConfirmed {b : Session.Act} (h : Orderly y (.app x b)) :
    (y.sess x).UsesConfirmed b := by
  unfold Orderly at h
  split at h <;> rename_i heq <;> cases heq
  · exact h.2
  · exact h.2
  · exact h

/-- Who sends a `CloseMessage`. -/
theorem close_step {ok : System → Act → Prop} (run : Run next ok start y) (hm : Moves y a y')
    (hc : c < (y.sess x).fresh) (h : (y'.chan x c).sent.any Message.isClose = true) :
    (y.chan x c).sent.any Message.isClose = true ∨ a = .app x (.call c .close) ∨
      (y.chan x c).handled.any Message.isClose = true := by
  obtain ⟨out, -, hat⟩ := hm.side x
  rcases hat.changes (inv run x) hc with heq | ⟨b, hch, hb⟩
  · rw [heq] at h
    exact .inl h
  · rcases hch.close h with h | rfl | h
    · exact .inl h
    · exact .inr (.inl (hb.resolve_right nofun))
    · exact .inr (.inr h)

/-- Only a call of `Write` adds to the calls in progress. -/
theorem writes_step {ok : System → Act → Prop} (run : Run next ok start y) (hm : Moves y a y')
    (hc : c < (y.sess x).fresh) (h : (y.chan x c).writes = []) :
    (y'.chan x c).writes = [] ∨ ∃ data, a = .app x (.call c (.write data)) := by
  obtain ⟨out, -, hat⟩ := hm.side x
  rcases hat.changes (inv run x) hc with heq | ⟨b, hch, hb⟩
  · rw [heq]
    exact .inl h
  · rcases hch.writes h with h | ⟨data, rfl⟩
    · exact .inl h
    · exact .inr ⟨data, hb.resolve_right nofun⟩

section Orderly

variable {ok : System → Act → Prop} (run : Run next Considerate start y) (h : Routed y)

include run h

/-- Who has handled a `CloseMessage` has it from the peer. -/
theorem Routed.closed_of_handled (hc : c < (y.sess x).fresh)
    (hcl : (y.chan x c).handled.any Message.isClose = true) :
    ∃ d ∈ y.peer x c, (y.chan x.other d).sent.any Message.isClose = true := by
  have hw := Wired.of_run run
  obtain ⟨m, hm, hcl⟩ := List.any_eq_true.mp hcl
  cases hp : y.peer x c with
  | some d =>
    have hin := (h.joined hw hp).handled.subset hm
    exact ⟨d, rfl, List.any_eq_true.mpr ⟨m, hin, hcl⟩⟩
  | none =>
    cases hdir : (y.chan x c).direction with
    | inbound =>
      obtain ⟨d, hd⟩ := hw.accepted x c hc hdir
      rw [hp] at hd
      cases hd
    | outbound =>
      rw [((h.fifo x c hc hdir).alone hp).handled] at hm
      cases hm

/-- A channel gets closed when the `Write` calls at both ends have returned. -/
theorem Routed.closedByOne_step (hm : Moves y a y') (hok : Orderly y a) (hc : c < (y.sess x).fresh)
    (hcl : ClosedByOne y' x c) : ClosedByOne y x c ∨
      ((y.chan x c).writes = [] ∧ ∀ data, a ≠ .app x (.call c (.write data))) := by
  have hw := Wired.of_run run
  rcases hcl with hcl | ⟨d, hd, hcl⟩
  · rcases close_step run hm hc hcl with hs | rfl | hh
    · exact .inl (.inl hs)
    · exact .inr ⟨hok.1.1, nofun⟩
    · exact .inl (.inr (h.closed_of_handled run hc hh))
  · cases hp : y.peer x c with
    | none =>
      have hdir : (y'.chan x c).direction = .outbound := by
        obtain ⟨out, -, hat⟩ := hm.side x
        rw [(hat.extends (inv run x) hc).direction]
        cases hdir : (y.chan x c).direction with
        | outbound => rfl
        | inbound =>
          obtain ⟨d', hd'⟩ := hw.accepted x c hc hdir
          rw [hp] at hd'
          cases hd'
      obtain ⟨m, id, hnew⟩ := hw.new_peer hm hdir hp hd
      rw [hnew] at hcl
      cases hcl
    | some d' =>
      obtain rfl : d = d' := Option.some.inj (hd.symm.trans (hw.peer_keep run hm hp))
      have hj := h.joined hw hp
      rcases close_step run hm (hw.lt x c d hp).2 hcl with hs | rfl | hh
      · exact .inl (.inr ⟨d, hp, hs⟩)
      · have := hok.1.2 c (hw.symm x c d hp)
        rw [Side.other_other] at this
        exact .inr ⟨this, by simp⟩
      · obtain ⟨m, hin, hm'⟩ := List.any_eq_true.mp hh
        exact .inl (.inl (List.any_eq_true.mpr ⟨m, hj.handled_peer.subset hin, hm'⟩))

end Orderly

/-- After a `CloseMessage` of either end there are no `Write` calls. -/
theorem writes_closed (run : Run next (fun y a => Orderly y a ∧ Considerate y a) start y) :
    ∀ x, ∀ c < (y.sess x).fresh, ClosedByOne y x c → (y.chan x c).writes = [] := by
  refine Run.invariant
    (I := fun y => ∀ x, ∀ c < (y.sess x).fresh, ClosedByOne y x c → (y.chan x c).writes = [])
    (fun _ _ hc => absurd hc (Nat.not_lt_zero _)) (fun y a y' hr ih hok hn x c hc hcl => ?_) run
  have run' : Run next Considerate start y := hr.weaken fun _ _ h => h.2
  have hm := Moves.of_next hn
  rcases Nat.lt_or_ge c (y.sess x).fresh with hlt | hge
  · rcases (Routed.of_run run').closedByOne_step run' hm hok.1 hlt hcl with hold | ⟨hw, hne⟩
    · refine (writes_step run' hm hlt (ih x c hlt hold)).resolve_right ?_
      rintro ⟨data, rfl⟩
      exact hok.1.1 hold
    · exact (writes_step run' hm hlt hw).resolve_right fun ⟨data, ha⟩ => hne data ha
  · obtain ⟨out, -, hat⟩ := hm.side x
    rcases hat.new hge hc with ⟨id, hid⟩ | ⟨m, id, hid⟩ <;> rw [hid] <;> rfl

/-- Orderly applications keep out of the way. -/
theorem considerate_of_orderly (run : Run next Orderly start y) :
    Run next (fun y a => Orderly y a ∧ Considerate y a) start y := by
  refine run.strengthen fun y a y' _ hr hok hn => ⟨hok, ?_⟩
  have run' : Run next Considerate start y := hr.weaken fun _ _ h => h.2
  cases a with
  | deliver x => trivial
  | app x b =>
    refine ⟨?_, hok.usesConfirmed⟩
    have settled : ∀ c, (y.chan x c).writes = [] → ((y.sess x).heap c).Settled := by
      intro c hw w hin
      rw [chan] at hw
      rw [hw] at hin
      cases hin
    cases b with
    | call c b =>
      cases b with
      | close => exact fun hs => ⟨settled c hok.1.1, hok.2⟩
      | reserve k =>
        intro hcl
        have hc : c < (y.sess x).fresh := by
          cases Moves.of_next hn with
          | app _ _ ht => cases ht with | call hc _ => exact hc
        right
        intro w hw
        rw [show ((y.sess x).heap c).writes = [] from writes_closed hr x c hc (.inl hcl)] at hw
        cases hw
      | _ => trivial
    | loop b =>
      simp only [Session.TidyClose]
      split
      · next c ops ho =>
        intro hs
        obtain ⟨hc, hh⟩ := (inv run' x).ops (.reply c) (by simp [ho])
        exact settled c (writes_closed hr x c hc
          (.inr ((Routed.of_run run').closed_of_handled run' hc hh)))
      · trivial
    | _ => trivial

/-- Where a message with a channel id is in flight, the id stands for the live counterpart
of the channel that sent it. -/
structure Delivered (y : System) (x : Side) (p : Packet) (c d : Nat) : Prop where
  src : p.src = some c
  peer : y.peer x c = some d
  back : y.peer x.other d = some c
  /-- the ids the two ends were told -/
  remoteId : (y.chan x c).remoteId = p.msg.channel.1
  localId : (y.chan x.other d).localId = p.msg.channel.1
  /-- the channel is listed, was not closed by its peer and its `close()` has not run -/
  listed : (y.sess x.other).chanList.getChan p.msg.channel.1 = some d
  live : (y.chan x.other d).ended = false ∧ (y.chan x.other d).msgClosed = false

theorem Routed.delivered (run : Run next Considerate start y) (h : Routed y) {p : Packet}
    (hp : p ∈ y.wire x) (hm : p.msg.channel.2 = true) : ∃ c d, Delivered y x p c d := by
  obtain ⟨c, d, hs, hin, hj⟩ := h.sender run hp hm
  obtain ⟨hc, hd⟩ := hj.fresh run
  obtain ⟨haddr, hdest⟩ := h.dest run hj hin
  have hlist := (Session.dest_eq_some.mp hdest).2
  have hsent : p.msg ∈ (y.chan x c).sent := by
    rw [← hj.there]
    exact List.mem_append_right _ hin
  have hremote : (y.chan x c).remoteId = (y.chan x.other d).localId := by
    cases hdir : (y.chan x c).direction with
    | inbound => exact (hj.opened run hdir).2
    | outbound =>
      have ho := opener run hc hdir
      refine ho.remote _ (hj.confirmedAs run) ?_
      rcases ho.speaks _ hsent with hopen | hconf | hclose
      · cases hmsg : p.msg with
        | openMsg m => rw [hmsg] at hm; cases hm
        | _ => rw [hmsg] at hopen; cases hopen
      · exact hconf
      · exact (hj.heralded run hdir).any hclose
  refine ⟨c, d, hs, hj.peer, (Wired.of_run run).symm x c d hj.peer, ?_, ?_, hlist, hj.live run hin, ?_⟩
  · rw [hremote, haddr]
  · rw [haddr]
  · have hi := inv run x.other
    rw [ChanList.getChan_eq hi.short] at hlist
    exact (hi.listed _ d hlist).2.2

/-- Between orderly applications ids are never mixed up, and no session ends. -/
theorem ids_never_misroute (run : Run next Orderly start y) (x : Side) :
    (y.sess x).running = true ∧
      ∀ p ∈ y.wire x, p.msg.channel.2 = true → ∃ c d, Delivered y x p c d := by
  have run' : Run next Considerate start y := (considerate_of_orderly run).weaken fun _ _ h => h.2
  have h := Routed.of_run run'
  exact ⟨h.running x, fun p hp hm => h.delivered run' hp hm⟩

/-- Both ends close a channel at the same time; then its id is used again, the other way
round. -/
theorem ids_never_misroute_run : ∃ y : System,
    y.wire .left = [⟨some 1, .openConfirm ⟨0, 0, 2097152, 32768⟩⟩] ∧ (y.chan .right 0).localId = 0 ∧
      (y.chan .right 0).msgClosed = true ∧
      ∃ c d, Delivered y .left ⟨some 1, .openConfirm ⟨0, 0, 2097152, 32768⟩⟩ c d := by
  let loops (x : Side) (n : Nat) := List.replicate n (Act.app x (.loop true))
  obtain ⟨y, hy, hp⟩ := Run.of_exec next Orderly start
    ([.app .left .register, .app .left (.call 0 (.sendOpen true)), .deliver .right] ++
      loops .right 2 ++ [.app .right .accept, .deliver .left] ++ loops .left 1 ++
      [.app .left (.call 0 .opened), .app .left (.call 0 .close), .app .right (.call 0 .close),
        .deliver .right] ++ loops .right 6 ++ [.deliver .left] ++ loops .left 6 ++
      [.app .right .register, .app .right (.call 1 (.sendOpen true)), .deliver .left] ++
      loops .left 2)
    (fun y => y.wire .left = [⟨some 1, .openConfirm ⟨0, 0, 2097152, 32768⟩⟩] ∧
      (y.chan .right 0).localId = 0 ∧ (y.chan .right 0).msgClosed = true)
    (by decide +kernel)
  simp only [decide_eq_true_eq] at hp
  obtain ⟨hw, hid, hcl⟩ := hp
  exact ⟨y, hw, hid, hcl, (ids_never_misroute hy .left).2 _ (by rw [hw]; simp) rfl⟩

end System

end Qtalk.Mux
