import Qtalk.System.Routing

/-!
# Credit between the two ends

A sender's window, what it has granted to its writers, what is in flight both ways and
what the receiver's readers have yet to give back add up to the receiver's window, for
every channel and in both directions, until one of the ends is closed.
-/

namespace Qtalk.Mux
open Qtalk.Codec Qtalk.Lib

namespace Channel

/-- All the credit the channel was given has been added to its window. -/
def Exact (ch : Channel) : Prop := ch.credit = creditOf ch.handled

theorem Exact.move {ch ch' : Channel} {who : Actor} {ms : List Message} (h : Exact ch)
    (hover : ∀ m, who = .recv (.openConfirm m) → ch.remoteWin.add m.windowSize ≠ none)
    (hm : Move ch who ms ch') : Exact (ch'.sends ms) := by
  unfold Exact at h
  cases hm with
  | gotAdjust | gotConfirm => simp [Exact, sends, Message.allowance, h]
  | gotConfirmOver hd ha => exact absurd ha (hover _ rfl)
  | _ => simpa [Exact, sends, writeReturn, CloseWrite, Message.allowance] using h

/-- The window offered by an `OpenConfirmMessage` that is not yet encoded. -/
def unconfirmed (ch : Channel) : Nat :=
  if ch.direction = .inbound ∧ ch.sent.any Message.isConfirm = false then ch.myWindow.toNat else 0

end Channel

namespace System

variable {y : System} {x : Side} {c d : Nat}

/-- The two ends, `c` of side `x` sending to `d`. -/
structure Conserved (y : System) (x : Side) (c d : Nat) : Prop where
  /-- the sender's window, granted bytes, data in flight, credit in flight, credit not yet
  encoded -/
  credit : (y.chan x c).remoteWin.win.toNat + total WriteCall.space (y.chan x c).writes +
      (dataOf (y.flow x c)).length + creditOf (y.flow x.other d) +
      total ReadCall.unsent (y.chan x.other d).reads + (y.chan x.other d).unconfirmed =
    (y.chan x.other d).myWindow.toNat
  /-- the receiver's window, unread bytes, bytes read and not yet credited -/
  window : (y.chan x.other d).myWindow.toNat + (y.chan x.other d).pending.content.length +
    total ReadCall.uncredited (y.chan x.other d).reads = channelWindowSize.toNat
  /-- no data that arrives is refused -/
  data : ∀ m rest, y.flow x c = .data m :: rest →
    ∃ ch, (y.chan x.other d).handleData m = .ok ch
  /-- no credit that arrives overflows the window -/
  add : ∀ m rest n, y.flow x c = m :: rest → n.toNat = m.allowance →
    ∃ win, (y.chan x.other d).remoteWin.add n = some win

theorem unconfirmed_eq {ok : System → Act → Prop} (run : Run next ok start y) (h : Joined y x c d) :
    (y.chan x.other d).unconfirmed + offerOf (y.chan x.other d).sent = channelWindowSize.toNat := by
  have hd := (h.fresh run).2
  rw [Channel.unconfirmed, offerOf]
  cases hdir : (y.chan x.other d).direction with
  | inbound =>
    have ha := acceptor run hd hdir
    rw [ha.not_isOpen]
    cases hc : (y.chan x.other d).sent.any Message.isConfirm with
    | true => simp
    | false => simp [(ha.untouched (accounts run hd) hc).2]
  | outbound =>
    have hopen : (y.chan x.other d).sent.any Message.isOpen = true :=
      List.any_eq_true.mpr ⟨_, (h.opened run (h.inbound_of run hdir)).1, rfl⟩
    simp [hopen]

/-- Two ends that are not closed, with all credit added. -/
theorem Joined.conserved {ok : System → Act → Prop} (run : Run next ok start y) (h : Joined y x c d)
    (hexact : (y.chan x c).Exact) (hsc : (y.chan x c).sentClose = false)
    (hsd : (y.chan x.other d).sentClose = false) : Conserved y x c d := by
  obtain ⟨hc, hd⟩ := h.fresh run
  have hC := accounts run hc
  have hD := accounts run hd
  have hunconf := unconfirmed_eq run h
  have hopen : (y.chan x c).remoteWin.closed = false := by
    cases hcl : (y.chan x c).remoteWin.closed with
    | false => rfl
    | true => rw [hC.spent.closed hcl] at hsc; cases hsc
  refine ⟨?_, hD.accounted, fun m rest hf => h.handleData run hf, fun m rest n hf hn => h.add run hf n hn⟩
  -- what the sender was given and used
  have hwin := hC.credited.window
  have hspent := hC.spent.eq hopen
  have hdata := (h.balance run).2
  -- what the receiver gave
  have hstream := congrArg List.length hD.streamed
  rw [List.length_append] at hstream
  have hret := hD.returned.eq hsd
  have hacc := hD.accounted
  have hgrants := (spoken run hd).grants
  have hcredit := congrArg creditOf h.back
  rw [Side.other_other, creditOf_append] at hcredit
  have hsplit := ReadCall.total_amount (y.chan x.other d).reads
  rw [Channel.Exact] at hexact
  rw [Channel.Accounted] at hacc
  omega

/-! ## Runs -/

/-- The messages delivered to the two ends of a channel are the channel's own. -/
def OwnMessages (x : Side) (c : Nat) (y : System) (a : Act) : Prop :=
  Own y x c a ∧ ∀ d ∈ y.peer x c, Own y x.other d a

instance (x : Side) (c : Nat) (y : System) (a : Act) : Decidable (OwnMessages x c y a) :=
  inferInstanceAs (Decidable (_ ∧ _))

/-- Between considerate applications they always are. -/
theorem ownMessages_considerate (run : Run next Considerate start y) :
    Run next (OwnMessages x c) start y :=
  run.strengthen fun _ _ _ hr _ _ _ => ⟨(Routed.of_run hr).own hr, fun _ _ => (Routed.of_run hr).own hr⟩

/-- Neither end is closed. -/
def Unclosed (x : Side) (c : Nat) (y : System) : Prop :=
  c < (y.sess x).fresh → (y.chan x c).sentClose = false ∧
    ∀ d, y.peer x c = some d → (y.chan x.other d).sentClose = false

theorem Unclosed.mono {ok : System → Act → Prop} {y' : System} {a : Act} (run : Run next ok start y)
    (hn : y.next a = some y') (h : Unclosed x c y') : Unclosed x c y := by
  have hm := Moves.of_next hn
  have back : ∀ z e, e < (y.sess z).fresh → (y'.chan z e).sentClose = false →
      (y.chan z e).sentClose = false := by
    intro z e he hs
    obtain ⟨out, -, hat⟩ := hm.side z
    cases hc : (y.chan z e).sentClose with
    | false => rfl
    | true => rw [(hat.extends (inv run z) he).sentClose hc] at hs; cases hs
  intro hc
  obtain ⟨out, -, hat⟩ := hm.side x
  obtain ⟨h1, h2⟩ := h (Nat.lt_of_lt_of_le hc hat.fresh)
  refine ⟨back x c hc h1, fun d hd => ?_⟩
  have hw := Wired.of_run run
  exact back x.other d (hw.lt x c d hd).2 (h2 d (hw.peer_keep run hm hd))

/-- The next message reaches the other end, while neither is closed. -/
theorem Joined.carries_unclosed {ok : System → Act → Prop} (run : Run next ok start y)
    (h : Joined y x c d) (hc : (y.chan x c).sentClose = false)
    (hd : (y.chan x.other d).sentClose = false) : Carries y x c d := by
  obtain ⟨hc', hd'⟩ := h.fresh run
  have hC := spoken run hc'
  have hnone : ∀ m ∈ (y.chan x c).handled, ¬ m.isClose = true := fun m hm =>
    any_false ((spoken run hd').unclosed hd) m (h.handled.subset hm)
  refine h.carries run (fun _ l m hp hm => ?_) fun _ => ?_
  · exact absurd hm (hnone m (hp.subset (by simp)))
  · rw [Channel.ended, Bool.or_eq_false_iff]
    constructor <;> rw [List.any_eq_false] <;> intro m hm
    · exact any_false (hC.unclosed hc) m (h.handled_peer.subset hm)
    · exact any_false hC.noFailure m (h.handled_peer.subset hm)

theorem fifo_unclosed (run : Run next (fun y a => OwnMessages x c y a ∧ Unclosed x c y) start y) :
    c < (y.sess x).fresh → (y.chan x c).direction = .outbound → Fifo y x c := by
  refine Run.invariant (I := fun y => c < (y.sess x).fresh →
    (y.chan x c).direction = .outbound → Fifo y x c) (fun hc => absurd hc (Nat.not_lt_zero c))
    (fun y a y' hr ih hok hn hc hd => ?_) run
  obtain ⟨⟨hown, hown'⟩, hun⟩ := hok
  have hw := Wired.of_run hr
  have hm := Moves.of_next hn
  have old : c < (y.sess x).fresh → Fifo y x c := fun hlt => by
    obtain ⟨out, -, hat⟩ := hm.side x
    exact ih hlt ((hat.extends (inv hr x) hlt).direction.symm.trans hd)
  refine Fifo.step hr hw hm hc hd old hown fun d hp => ?_
  have hlt := (hw.lt x c d hp).1
  have hj := (old hlt).joined hp
  obtain ⟨h1, h2⟩ := hun hlt
  refine ⟨hown' d hp, hj.carries_unclosed hr h1 (h2 d hp), ?_⟩
  exact (hj.symm hw).carries_unclosed hr (h2 d hp) (by rwa [Side.other_other])

section Step

variable {ok : System → Act → Prop} {y' : System} {a : Act} (run : Run next ok start y)
  (hm : Moves y a y')

include run hm

theorem exact_step (hc : c < (y.sess x).fresh) (h : (y.chan x c).Exact)
    (hover : ∀ p ps m, a = .deliver x → y.wire x.other = p :: ps → (y.sess x).dest p.msg = some c →
      p.msg = .openConfirm m → (y.chan x c).remoteWin.add m.windowSize ≠ none) :
    (y'.chan x c).Exact := by
  obtain ⟨out, -, hat⟩ := hm.side x
  cases hat with
  | still _ hs => rw [chan, hs]; exact h
  | app _ hr ht =>
    cases (inv run x).changes ht hc with
    | none hh _ => rw [chan, hh]; exact h
    | move hby hmove hh _ =>
      rw [chan, hh]
      refine h.move (fun m hwho => ?_) hmove
      subst hwho
      cases hby
      cases hr
  | @recv p ps ha hwire ht =>
    cases (inv run x).changes ht hc with
    | none hh _ => rw [chan, hh]; exact h
    | move hby hmove hh _ =>
      rw [chan, hh]
      refine h.move (fun m hwho => ?_) hmove
      subst hwho
      generalize hmsg : p.msg = msg at hby
      cases hby with
      | recv _ hm1 hg =>
        exact hover p ps m ha hwire (Session.dest_eq_some.mpr ⟨by rw [hmsg, hm1], by rw [hmsg, hg]⟩)
          hmsg

end Step

/-- The confirmation a channel handles does not overflow its window. -/
theorem Joined.not_over {ok : System → Act → Prop} (run : Run next ok start y) (h : Joined y x c d)
    {p : Packet} {ps : List Packet} {m : OpenConfirmMessage} (hwire : y.wire x = p :: ps)
    (hs : p.src = some c) (hmsg : p.msg = .openConfirm m) :
    (y.chan x.other d).remoteWin.add m.windowSize ≠ none := by
  have hf : y.flow x c = p.msg :: Session.sentBy c ps := by
    rw [flow, hwire, Session.sentBy_cons, if_pos hs]
  obtain ⟨win, hwin⟩ := h.add run hf m.windowSize (by rw [hmsg]; rfl)
  rw [hwin]
  exact Option.some_ne_none win

theorem exact_unclosed (run : Run next (fun y a => OwnMessages x c y a ∧ Unclosed x c y) start y) :
    c < (y.sess x).fresh → (y.chan x c).direction = .outbound → (y.chan x c).Exact ∧
      ∀ d, y.peer x c = some d → (y.chan x.other d).Exact := by
  refine Run.invariant (I := fun y => c < (y.sess x).fresh → (y.chan x c).direction = .outbound →
    (y.chan x c).Exact ∧ ∀ d, y.peer x c = some d → (y.chan x.other d).Exact)
    (fun hc => absurd hc (Nat.not_lt_zero c)) (fun y a y' hr ih hok hn hc hd => ?_) run
  obtain ⟨⟨hown, hown'⟩, hun⟩ := hok
  have hw := Wired.of_run hr
  have hm := Moves.of_next hn
  by_cases hlt : c < (y.sess x).fresh
  · have hdir : (y.chan x c).direction = .outbound := by
      obtain ⟨out, -, hat⟩ := hm.side x
      exact (hat.extends (inv hr x) hlt).direction.symm.trans hd
    obtain ⟨he, he'⟩ := ih hlt hdir
    have hfifo := fifo_unclosed hr hlt hdir
    refine ⟨exact_step hr hm hlt he fun p ps m ha hwire hdest hmsg => ?_, fun d hp' => ?_⟩
    · subst ha
      have hsrc := hown rfl p (by simp [hwire]) hdest
      cases hp : y.peer x c with
      | none =>
        exact absurd (hsrc.trans hp) (hw.src_ne_none x.other (by rw [hwire]; exact List.mem_cons_self))
      | some d =>
        have := ((hfifo.joined hp).symm hw).not_over hr hwire (hsrc.trans hp) hmsg
        rwa [Side.other_other] at this
    · cases hp : y.peer x c with
      | none =>
        obtain ⟨m, id, hnew⟩ := hw.new_peer hm hd hp hp'
        rw [hnew]
        simp [Channel.Exact, Session.inboundChannel, Message.allowance]
      | some d' =>
        obtain rfl : d = d' := Option.some.inj (hp'.symm.trans (hw.peer_keep hr hm hp))
        refine exact_step hr hm (hw.lt x c d hp).2 (he' d hp) fun p ps m ha hwire hdest hmsg => ?_
        subst ha
        have hsrc := hown' d hp rfl p (by rw [hwire]; rfl) hdest
        rw [hw.symm x c d hp] at hsrc
        rw [Side.other_other] at hwire
        exact (hfifo.joined hp).not_over hr hwire hsrc hmsg
  · -- a new channel has no credit yet
    rcases hm.pairs fun x p => hw.src_ne_none x with
      ⟨hp', hn', -⟩ | @⟨z, p, ps, m, id, c', ha, hwire, hmsg, hs, hf, ho, hnew, hp'⟩
    · obtain ⟨id, hid⟩ := hn' x c (Nat.le_of_not_lt hlt) hc
      refine ⟨by rw [hid]; rfl, fun d hp => ?_⟩
      rw [hp', hw.peer_fresh (Nat.le_of_not_lt hlt)] at hp
      cases hp
    · rcases z.eq_or_other x with rfl | rfl
      · obtain rfl : c = (y.sess x).fresh := by omega
        rw [hnew] at hd
        cases hd
      · rw [ho] at hc
        exact absurd hc hlt

/-- Credit is conserved between the two ends of every channel, in both directions. -/
theorem credit_conserved (run : Run next (OwnMessages x c) start y)
    (hout : (y.chan x c).direction = .outbound) (hp : y.peer x c = some d)
    (hc : (y.chan x c).sentClose = false) (hd : (y.chan x.other d).sentClose = false) :
    Conserved y x c d ∧ Conserved y x.other d c := by
  have hw := Wired.of_run run
  have hlt := (hw.lt x c d hp).1
  have hun : Unclosed x c y := fun _ =>
    ⟨hc, fun d' hd' => by rw [hp] at hd'; cases hd'; exact hd⟩
  have run' := run.always (fun _ _ _ hr hn h => h.mono hr hn) hun
  have hj := (fifo_unclosed run' hlt hout).joined hp
  obtain ⟨he, he'⟩ := exact_unclosed run' hlt hout
  refine ⟨hj.conserved run he hc hd, ?_⟩
  exact (hj.symm hw).conserved run (he' d hp) hd (by rwa [Side.other_other])

/-- A byte read and not given back, and one in flight. -/
theorem credit_conserved_run : ∃ y : System, y.flow .left 0 = [.data ⟨0, 1, [2]⟩] ∧
    (y.chan .right 0).reads = [.credited 1] ∧ Conserved y .left 0 0 ∧ Conserved y .right 0 0 := by
  obtain ⟨y, hy, hp⟩ := Run.of_exec next (OwnMessages .left 0) start
    [.app .left .register, .app .left (.call 0 (.sendOpen true)), .deliver .right,
      .app .right (.loop true), .app .right (.loop true), .app .right .accept, .deliver .left,
      .app .left (.loop true), .app .left (.call 0 .opened),
      .app .left (.call 0 (.write [1])), .app .left (.call 0 (.reserve 0)),
      .app .left (.call 0 (.sendData 0 true)), .app .left (.call 0 (.reserve 0)), .deliver .right,
      .app .right (.call 0 (.read 4)), .app .right (.call 0 (.credit 0)),
      .app .left (.call 0 (.write [2])), .app .left (.call 0 (.reserve 0)),
      .app .left (.call 0 (.sendData 0 true))]
    (fun y => (y.flow .left 0 = [.data ⟨0, 1, [2]⟩] ∧ (y.chan .right 0).reads = [.credited 1]) ∧
      (y.chan .left 0).direction = .outbound ∧ y.peer .left 0 = some 0 ∧
      (y.chan .left 0).sentClose = false ∧ (y.chan .right 0).sentClose = false)
    (by decide +kernel)
  simp only [decide_eq_true_eq] at hp
  obtain ⟨⟨h1, h2⟩, h3, h4, h5, h6⟩ := hp
  exact ⟨y, h1, h2, credit_conserved hy h3 h4 h5 h6⟩

end System

end Qtalk.Mux
