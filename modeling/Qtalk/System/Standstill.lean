import Qtalk.Mux.Awaiting
import Qtalk.Mux.Decided
import Qtalk.System.Credit
import Qtalk.System.Ending

/-!
# When neither loop can go on

Two sessions whose loops wait for packets, with nothing on the wire. What one end of a channel has
sent the other has handled (`Rested.handled`), and is done with: an end that is closed has closed its
peer's window and ended its stream (`Rested.shut`), an `Open` that waits has its confirmation
(`Rested.confirmed`), and what is left of a window is what the peer has not read
(`Rested.window`).
-/

namespace Qtalk.Mux
open Qtalk.Codec Qtalk.Lib

/-- With nothing in hand the loop takes a packet. -/
theorem Session.takes_next {s : Session} {m : Message} (hr : s.running = true) (ho : s.ops = [])
    (hf : s.fault = none) (hm : Session.Decoded (.ok m)) (room : s.chanList.length + 1 < 2 ^ 32) :
    ∃ s', s.next (.recv (.ok m)) = some s' := by
  have htake : ∃ s', s.onePacket (.ok m) = some s' := by
    unfold Session.onePacket
    dsimp only
    split
    · split
      · exact ⟨_, rfl⟩
      · exact ⟨_, rfl⟩
    · split
      · next m' =>
        unfold Session.handleOpen
        split
        · exact ⟨_, rfl⟩
        · rw [Session.newChannel, if_pos room]
          exact ⟨_, rfl⟩
      · exact ⟨_, rfl⟩
  obtain ⟨s', hs'⟩ := htake
  refine ⟨s', ?_⟩
  simp [Session.next, Session.step, hf, hr, ho, hm, Session.Act.writes, hs']

/-- The loop puts its value into `closeCh` once. -/
theorem Session.signalsOnce {ok : Session → Session.Act → Prop} {s : Session}
    (run : Run Session.next ok newSession s) : s.SignalsOnce := by
  refine Run.invariant (I := Session.SignalsOnce) .start (fun s a s' hr h _ hn => ?_) run
  obtain ⟨out, ht⟩ := exists_trans hn
  exact h.step (ht.selects (plans hr))

namespace System

variable {y y' : System} {x : Side} {c d : Nat}

/-- A step that the channel can take the session takes. -/
theorem call_next {st : Channel.Step} {r : Channel × List Message} (hc : c < (y.sess x).fresh)
    (hf : (y.sess x).fault = none) (conn : (y.sess x).connClosed = false)
    (hr : reliable (y.sess x) (.call c st) = true) (hs : (y.chan x c).step st = some r) :
    ∃ y', y.next (.app x (.call c st)) = some y' := by
  have hstep : ((y.sess x).heap c).step st = some r := hs
  simp [next, hr, Session.step, hf, conn, hc, hstep]

theorem register_next (hf : (y.sess x).fault = none) (room : (y.sess x).chanList.length + 1 < 2 ^ 32) :
    ∃ y', y.next (.app x .register) = some y' := by
  have hnew : (y.sess x).newChannel Session.outboundChannel = some _ := if_pos room
  simp [next, reliable, Session.step, hf, Session.Act.writes, hnew]

/-- Neither loop panics. -/
theorem not_faulty {ok : System → Act → Prop} (run : Run next ok start y) (x : Side) :
    (y.sess x).fault = none := by
  refine Run.invariant (I := fun y => ∀ x, (y.sess x).fault = none) (fun _ => rfl)
    (fun y a y' hr h _ hn x => ?_) run x
  obtain ⟨out, -, hat⟩ := (Moves.of_next hn).side x
  cases hat with
  | still _ hs => rw [hs, h x]
  | app _ hrel ht =>
    refine ((inv hr x).fault_eq ht fun hb => ?_).trans (h x)
    subst hb
    cases hrel
  | recv _ _ ht => exact ((inv hr x).fault_eq ht (by simp)).trans (h x)

/-- Neither loop can go on, and no packet can be taken. -/
def Still (y : System) : Prop :=
  ∀ x, y.next (.app x (.loop true)) = none ∧ y.next (.deliver x) = none

/-- Nothing is in hand and nothing in flight. -/
structure Rested (y : System) : Prop where
  run : Run next Considerate start y
  ops : ∀ x, (y.sess x).ops = []
  wire : ∀ x, y.wire x = []

section Still

variable (run : Run next Considerate start y)

include run

/-- A channel handles one response. -/
theorem one_response (hc : c < (y.sess x).fresh) : (y.chan x c).responses.length ≤ 1 := by
  have hw := Wired.of_run run
  have hr := Routed.of_run run
  cases hp : y.peer x c with
  | none =>
    cases hd : (y.chan x c).direction with
    | outbound =>
      rw [Channel.responses, ((hr.fifo x c hc hd).alone hp).handled]
      exact Nat.zero_le 1
    | inbound =>
      obtain ⟨d, hd⟩ := hw.accepted x c hc hd
      rw [hp] at hd
      cases hd
  | some d =>
    have hj := hr.joined hw hp
    have hd := (hj.fresh run).2
    have hle : (y.chan x c).handled.countP Message.isResponse ≤ 1 := by
      refine Nat.le_trans (hj.handled.sublist.countP_le) ?_
      refine Nat.le_trans ?_ (Session.confirmsOnce (any_run run x.other) d hd)
      refine List.countP_mono_left fun m hm hresp => ?_
      rw [Message.isResponse, Bool.or_eq_true] at hresp
      exact hresp.resolve_right (any_false (spoken run hd).noFailure m hm)
    rwa [List.countP_eq_length_filter] at hle

/-- Nothing else than room in the queue of `Accept` is waited for. -/
theorem Still.ops (h : Still y)
    (hpub : ∀ c, .publish c ∈ (y.sess x).ops → (y.sess x).incoming.length < chanSize) :
    (y.sess x).ops = [] := by
  have hstep : (y.sess x).loopStep true = none := by
    have hnone := (h x).1
    have hconn := (Routed.of_run run).connected x
    by_contra hsome
    obtain ⟨r, hr⟩ := Option.ne_none_iff_exists'.mp hsome
    simp [next, reliable, Session.step, not_faulty run x, hconn, hr] at hnone
  cases ho : (y.sess x).ops with
  | nil => rfl
  | cons op ops =>
    rw [Session.loopStep, ho] at hstep
    have hin : op ∈ (y.sess x).ops := by rw [ho]; exact List.mem_cons_self
    cases op with
    | publish c =>
      have hroom := hpub c hin
      simp [Session.runOp, hroom] at hstep
    | queue c m =>
      obtain ⟨hc, -, hclosed⟩ := (inv run x).ops _ hin
      have hqueued := (Session.answers (any_run run x)).queued c hc
      have hone : (y.chan x c).responses.length ≤ 1 := one_response run hc
      have hhand : 0 < Session.inHand c (y.sess x).ops :=
        List.countP_pos_iff.mpr ⟨_, hin, by simp⟩
      have hroom : ((y.sess x).heap c).msg.length < chanSize := by
        rw [chan] at hone
        have : chanSize = 16 := rfl
        omega
      simp [Session.runOp, hclosed, hroom] at hstep
    | closeMsg c =>
      simp only [Session.runOp] at hstep
      split at hstep <;> cases hstep
    | _ => simp [Session.runOp] at hstep

theorem Still.rested (h : Still y) (room : ∀ x, (y.sess x).chanList.length + 1 < 2 ^ 32)
    (hpub : ∀ x c, .publish c ∈ (y.sess x).ops → (y.sess x).incoming.length < chanSize) :
    Rested y := by
  have ops : ∀ x, (y.sess x).ops = [] := fun x => h.ops run (hpub x)
  refine ⟨run, ops, fun x => ?_⟩
  cases hwire : y.wire x with
  | nil => rfl
  | cons p ps =>
    have hnone := (h x.other).2
    obtain ⟨c, hc, -, hsent⟩ := (Wired.of_run run).known x p (by rw [hwire]; exact List.mem_cons_self)
    have hm : Session.Decoded (.ok p.msg) := by
      have hsize := (accounts run hc).sized.wellSized p.msg hsent
      cases hmsg : p.msg with
      | data m =>
        rw [hmsg] at hsize
        have heq : m.length.toNat = m.data.length := hsize
        show m.data.length < 2 ^ 32
        rw [← heq]
        exact m.length.toNat_lt
      | _ => trivial
    obtain ⟨s', hs'⟩ := Session.takes_next ((Routed.of_run run).running x.other) (ops x.other)
      (not_faulty run x.other) hm (room x.other)
    simp [next, Side.other_other, hwire, hs'] at hnone

end Still

/-! ## The answer to an `Open` -/

section Opening

variable (run : Run next Considerate start y) (hc : c < (y.sess x).fresh)
  (hd : (y.chan x c).direction = .outbound)

include run hc hd

/-- Only confirmations come back. -/
theorem confirms {m : Message} (hm : m ∈ (y.chan x c).msg) : ∃ m', m = .openConfirm m' := by
  have hresp := (Session.notified (any_run run x) c hc).responses m (.inl hm)
  have hin := (opener run hc hd).queued m hm
  have hw := Wired.of_run run
  have hr := Routed.of_run run
  cases hp : y.peer x c with
  | none =>
    rw [((hr.fifo x c hc hd).alone hp).handled] at hin
    cases hin
  | some d =>
    have hj := hr.joined hw hp
    have hfail := any_false (spoken run (hj.fresh run).2).noFailure m (hj.handled.subset hin)
    cases m with
    | openConfirm m' => exact ⟨m', rfl⟩
    | openFailure m' => exact absurd rfl hfail
    | _ => cases hresp

/-- An `Open` that goes on has its confirmation. -/
theorem opened_confirmed (hw : (y.chan x c).opening = .waiting)
    (hgo : (y.chan x c).msg ≠ [] ∨ (y.chan x c).msgClosed = true) :
    ∃ m rest, (y.chan x c).msg = .openConfirm m :: rest := by
  have hmsg : (y.chan x c).msg ≠ [] := by
    refine hgo.elim id fun hclosed => ?_
    have hheard : (y.chan x c).handled.any Message.isClose = true →
        (y.chan x c).handled.any Message.isResponse = true := by
      intro hcl
      obtain ⟨d, hp, -⟩ := (Routed.of_run run).closed_of_handled run hc hcl
      have hj := (Routed.of_run run).joined (Wired.of_run run) hp
      obtain ⟨m, hin, hconf⟩ := List.any_eq_true.mp ((hj.heralded run hd).any hcl)
      exact List.any_eq_true.mpr ⟨m, hin, by rw [Message.isResponse, hconf, Bool.true_or]⟩
    exact (Session.notified (any_run run x) c hc).waiting (inv run x) (Session.lives (any_run run x) c hc)
      ((Routed.of_run run).running x) hheard hw hclosed
  cases hl : (y.chan x c).msg with
  | nil => exact absurd hl hmsg
  | cons m rest =>
    obtain ⟨m', rfl⟩ := confirms run hc hd (m := m) (by rw [hl]; exact List.mem_cons_self)
    exact ⟨m', rest, rfl⟩

end Opening

/-! ## Two ends at rest -/

namespace Rested

variable (h : Rested y)

include h

theorem flow (x : Side) (c : Nat) : y.flow x c = [] := by
  rw [System.flow, h.wire]
  rfl

theorem not_in_hand {op : LoopOp} : op ∉ (y.sess x).ops := by
  rw [h.ops]
  simp

theorem joined (hp : y.peer x c = some d) : Joined y x c d :=
  (Routed.of_run h.run).joined (Wired.of_run h.run) hp

/-- What one end has sent the other has handled. -/
theorem handled (hp : y.peer x c = some d) : (y.chan x.other d).handled = (y.chan x c).sent := by
  have hlink := (h.joined hp).there
  rwa [Link, h.flow, List.append_nil] at hlink

/-- An end that is closed has closed the other. -/
theorem shut (hp : y.peer x c = some d) (hs : (y.chan x c).sentClose = true) :
    (y.chan x.other d).sentClose = true ∧ (y.chan x.other d).pending.closed = true ∧
      (y.chan x.other d).remoteWin.closed = true := by
  obtain ⟨hc, hd⟩ := (h.joined hp).fresh h.run
  have hsent := (Session.lives (any_run h.run x) c hc).flagged ((Routed.of_run h.run).running x) hs
  have hheard : (y.chan x.other d).handled.any Message.isClose = true := by
    rw [h.handled hp]
    exact hsent
  have hlife := Session.lives (any_run h.run x.other) d hd
  have hwound := hlife.closing hheard
  refine ⟨?_, hwound.eof.resolve_left h.not_in_hand, hwound.win.resolve_left h.not_in_hand⟩
  have hback : (y.chan x.other d).sent.any Message.isClose = true :=
    (hlife.answered hheard).resolve_left h.not_in_hand
  by_contra hopen
  rw [(spoken h.run hd).unclosed (by simpa using hopen)] at hback
  cases hback

theorem inbound_confirmed (hd : d < (y.sess x).fresh) (hin : (y.chan x d).direction = .inbound) :
    (y.chan x d).sent.any Message.isConfirm = true :=
  ((inv h.run x).confirmed d hd hin).resolve_left h.not_in_hand

/-- An `Open` that has sent its `OpenMessage` has its confirmation. -/
theorem confirmed (hc : c < (y.sess x).fresh) (hd : (y.chan x c).direction = .outbound)
    (hw : (y.chan x c).opening = .waiting) : (y.chan x c).msg ≠ [] := by
  have hsent := Session.opensFirst (any_run h.run x) c hc hd
    (by rw [show ((y.sess x).heap c).opening = .waiting from hw]; simp)
  obtain ⟨d, hp⟩ := has_peer (h.run.weaken fun y a hok => by
      cases a with
      | app => exact hok.2
      | deliver => trivial) (Routed.of_run h.run).running h.wire hc hsent
  have hin : (y.chan x.other d).direction = .inbound :=
    ((Wired.of_run h.run).outbound_iff hp).mp hd
  have hconf := h.inbound_confirmed ((h.joined hp).fresh h.run).2 hin
  have hpo : y.peer x.other d = some c := (Wired.of_run h.run).symm x c d hp
  have hheard := h.handled hpo
  rw [Side.other_other] at hheard
  have hresp : (y.chan x c).handled.any Message.isResponse = true := by
    rw [hheard]
    obtain ⟨m, hm, hconf⟩ := List.any_eq_true.mp hconf
    exact List.any_eq_true.mpr ⟨m, hm, by rw [Message.isResponse, hconf, Bool.true_or]⟩
  rcases (Session.notified (any_run h.run x) c hc).answered hresp with ho | hmsg | ⟨m, hq⟩
  · rw [show ((y.sess x).heap c).opening = .waiting from hw] at ho
    cases ho
  · exact hmsg
  · exact absurd hq h.not_in_hand

end Rested

/-- Two ends that are not closed have all credit between them. -/
theorem conserved_considerate (run : Run next Considerate start y) (hp : y.peer x c = some d)
    (hc : (y.chan x c).sentClose = false) (hd : (y.chan x.other d).sentClose = false) :
    Conserved y x c d := by
  have hw := Wired.of_run run
  have hj := (Routed.of_run run).joined hw hp
  have key : ∀ {z e f}, y.peer z e = some f → (y.chan z e).direction = .outbound →
      (y.chan z e).sentClose = false → (y.chan z.other f).sentClose = false →
      (y.chan z e).Exact ∧ (y.chan z.other f).Exact := by
    intro z e f hp hdir he hf
    have hun : Unclosed z e y := fun _ =>
      ⟨he, fun f' hf' => by rw [hp] at hf'; cases hf'; exact hf⟩
    have run' := (ownMessages_considerate (x := z) (c := e) run).always
      (fun _ _ _ hr hn h => h.mono hr hn) hun
    obtain ⟨h1, h2⟩ := exact_unclosed run' (hw.lt z e f hp).1 hdir
    exact ⟨h1, h2 f hp⟩
  cases hdir : (y.chan x c).direction with
  | outbound => exact hj.conserved run (key hp hdir hc hd).1 hc hd
  | inbound =>
    have hback := key (hw.symm x c d hp) ((hw.inbound_iff hp).mp hdir) hd
      (by rw [Side.other_other]; exact hc)
    rw [Side.other_other] at hback
    exact hj.conserved run hback.2 hc hd

/-- What is missing from a window the peer has in its buffer. -/
theorem Rested.window (h : Rested y) (hp : y.peer x c = some d)
    (hc : (y.chan x c).sentClose = false) (hd : (y.chan x.other d).sentClose = false)
    (hw : ∀ w ∈ (y.chan x c).writes, w.granted = none) (hr : (y.chan x.other d).reads = []) :
    (y.chan x c).remoteWin.win.toNat + (y.chan x.other d).pending.content.length =
      channelWindowSize.toNat := by
  have hcons := conserved_considerate h.run hp hc hd
  have hcredit := hcons.credit
  have hwindow := hcons.window
  have hspace : total WriteCall.space (y.chan x c).writes = 0 := by
    refine List.sum_eq_zero fun n hn => ?_
    obtain ⟨w, hin, rfl⟩ := List.mem_map.mp hn
    rw [WriteCall.space, hw w hin]
  have hconf : (y.chan x.other d).unconfirmed = 0 := by
    rw [Channel.unconfirmed]
    split
    · next hin =>
      rw [h.inbound_confirmed ((h.joined hp).fresh h.run).2 hin.1] at hin
      cases hin.2
    · rfl
  rw [h.flow, h.flow, hr, hspace, hconf] at hcredit
  rw [hr] at hwindow
  simp only [dataOf_nil, List.length_nil, creditOf_nil, total_nil, Nat.add_zero] at hcredit
  simp only [total_nil, Nat.add_zero] at hwindow
  omega

end System

end Qtalk.Mux
