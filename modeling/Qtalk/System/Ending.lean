import Qtalk.Mux.Handshake
import Qtalk.System.Routing

/-!
# How a channel ends

The packets of a `Write` in progress may follow the `CloseMessage` that the loop sends, and
then the id in them may stand for another channel. The messages that open, confirm and
close a channel are not touched by that: while both sessions run and accepted channels are
used only after their confirmation, they reach the other end and no one else (`Meets`). So
a channel that one end has closed leaves both lists (`ends_of_close`).
-/

namespace Qtalk.Mux
open Qtalk.Codec Qtalk.Lib

namespace System

variable {y y' : System} {a : Act} {x z : Side} {c d : Nat}

/-- The handshake messages `c` has sent `d` has handled, or they are in flight. -/
def Told (y : System) (x : Side) (c d : Nat) : Prop :=
  handshake (y.chan x.other d).handled ++ handshake (y.flow x c) = handshake (y.chan x c).sent

/-- A channel that has no peer yet. -/
structure Unmet (y : System) (x : Side) (c : Nat) : Prop where
  handled : handshake (y.chan x c).handled = []
  flow : y.flow x c = (y.chan x c).sent

/-- Every channel has told its peer about its handshake. -/
structure Meets (y : System) : Prop where
  told : ∀ x c d, y.peer x c = some d → Told y x c d
  unmet : ∀ x, ∀ c < (y.sess x).fresh, y.peer x c = none → Unmet y x c

theorem Meets.start : Meets System.start where
  told := by simp [System.start]
  unmet x c hc := absurd hc (Nat.not_lt_zero c)

theorem Told.sent (h : Told y x c d) {m : Message} (hk : m.isHandshake = true)
    (hm : m ∈ (y.chan x.other d).handled) : m ∈ (y.chan x c).sent := by
  have hin : m ∈ handshake (y.chan x c).sent := by
    rw [← h]
    exact List.mem_append_left _ (mem_handshake.mpr ⟨hm, hk⟩)
  exact (mem_handshake.mp hin).1

theorem Told.sent_of_flow (h : Told y x c d) {m : Message} (hk : m.isHandshake = true)
    (hm : m ∈ y.flow x c) : m ∈ (y.chan x c).sent := by
  have hin : m ∈ handshake (y.chan x c).sent := by
    rw [← h]
    exact List.mem_append_right _ (mem_handshake.mpr ⟨hm, hk⟩)
  exact (mem_handshake.mp hin).1

/-- With nothing in flight the peer has handled what was sent. -/
theorem Told.arrived (h : Told y x c d) (hf : y.flow x c = []) {p : Message → Bool}
    (hp : ∀ m, p m = true → m.isHandshake = true) (hs : (y.chan x c).sent.any p = true) :
    (y.chan x.other d).handled.any p = true := by
  rw [Told, hf, handshake_nil, List.append_nil] at h
  rw [← any_handshake hp, h, any_handshake hp]
  exact hs

section State

variable (run : Run next UsesConfirmed System.start y) (h : Meets y)

include run h

theorem Meets.back (hp : y.peer x c = some d) :
    handshake (y.chan x c).handled ++ handshake (y.flow x.other d) = handshake (y.chan x.other d).sent := by
  have hb := h.told x.other d c ((Wired.of_run run).symm x c d hp)
  rw [Told, Side.other_other] at hb
  exact hb

theorem Meets.from_peer (hp : y.peer x c = some d) {m : Message} (hk : m.isHandshake = true)
    (hm : m ∈ (y.chan x c).handled) : m ∈ (y.chan x.other d).sent := by
  have hb := h.told x.other d c ((Wired.of_run run).symm x c d hp)
  apply hb.sent hk
  rw [Side.other_other]
  exact hm

/-- An accepted channel speaks to the id of its peer. -/
theorem Meets.remoteId (hp : y.peer x c = some d) (hin : (y.chan x c).direction = .inbound) :
    (y.chan x c).remoteId = (y.chan x.other d).localId := by
  obtain ⟨hc, hd⟩ := (Wired.of_run run).lt x c d hp
  obtain ⟨m, rest, hh, hid, -⟩ := (System.acceptor run hc hin).opened
  have hsent : .openMsg m ∈ (y.chan x.other d).sent := by
    apply h.from_peer run hp rfl
    rw [hh]
    exact List.mem_cons_self
  rw [hid, ((spoken run hd).opens m hsent).2]

theorem Meets.confirmedAs (hp : y.peer x c = some d) :
    (y.chan x c).ConfirmedAs (y.chan x.other d).localId := by
  intro m hm
  have hsent := h.from_peer run hp (m := .openConfirm m) rfl hm
  rw [((spoken run ((Wired.of_run run).lt x c d hp).2).confirms m hsent).2]

/-- The first handshake message an opener hears is the confirmation. -/
theorem Meets.heralded (hp : y.peer x c = some d) (hd : (y.chan x.other d).direction = .inbound) :
    Channel.Heralded (y.chan x c).handled := by
  have hconf : (y.chan x.other d).ConfirmsFirst :=
    Session.confirmsFirst (session_run (fun _ _ _ h => h) (fun _ _ => trivial) run x.other) d
      ((Wired.of_run run).lt x c d hp).2 hd
  apply Channel.Heralded.of_handshake
  intro l m hpre hm
  obtain ⟨t, ht⟩ := hpre
  have hall : handshake (y.chan x.other d).sent = l ++ m :: (t ++ handshake (y.flow x.other d)) := by
    rw [← h.back run hp, ← ht]
    simp
  cases l with
  | nil =>
    have := hconf.head (m := m) (by rw [hall]; rfl)
    cases m with
    | close => cases this
    | _ => cases hm
  | cons m₀ l =>
    have := hconf.head (m := m₀) (by rw [hall]; rfl)
    rw [List.any_cons, this, Bool.true_or]

/-- Handshake messages carry the id of the peer. -/
theorem Meets.addressed (hp : y.peer x c = some d) {m : Message} (hk : m.isHandshake = true)
    (ho : m.isOpen = false) (hm : m ∈ y.flow x c) : m.channel = ((y.chan x.other d).localId, true) := by
  have hw := Wired.of_run run
  have hc := (hw.lt x c d hp).1
  have hsent := (h.told x c d hp).sent_of_flow hk hm
  cases hdir : (y.chan x c).direction with
  | inbound => rw [(System.acceptor run hc hdir).addressed m hsent, h.remoteId run hp hdir]
  | outbound =>
    have hin := (hw.outbound_iff hp).mp hdir
    have haddr := (System.opener run hc hdir).addressed _ (h.confirmedAs run hp) (h.heralded run hp hin)
    refine (haddr m hsent).resolve_left ?_
    rw [ho]
    simp

/-- While a handshake message is in flight to a channel, its peer has not closed. -/
theorem Meets.live (hp : y.peer x c = some d) {m : Message} (hk : m.isHandshake = true)
    (hm : m ∈ y.flow x c) : (y.chan x.other d).ended = false := by
  have hw := Wired.of_run run
  have hc := (hw.lt x c d hp).1
  have htold := h.told x c d hp
  have hfail : (y.chan x.other d).handled.any Message.isFailure = false := by
    rw [List.any_eq_false]
    intro m' hm' hf
    have hk' : m'.isHandshake = true := by
      cases m' with
      | openFailure m' => rfl
      | _ => cases hf
    exact any_false (spoken run hc).noFailure m' (htold.sent hk' hm') hf
  rw [Channel.ended, hfail, Bool.or_false, List.any_eq_false]
  intro m' hm' hcl
  have hsent := htold.sent_of_flow hk hm
  have hhand : m' ∈ handshake (y.chan x.other d).handled :=
    mem_handshake.mpr ⟨hm', isClose_handshake m' hcl⟩
  cases m with
  | openMsg m => exact absurd ((hw.unpaired run hm).2.symm.trans hp) (by simp)
  | openFailure m => exact any_false (spoken run hc).noFailure _ hsent rfl
  | data m => cases hk
  | windowAdjust m => cases hk
  | eof m => cases hk
  | close m =>
    -- it would be the second one
    have honce := Session.closesOnce (any_run run x) c hc
    have hone : (y.chan x c).sent.countP Message.isClose ≤ 1 := honce
    rw [← count_handshake isClose_handshake, ← htold, List.countP_append] at hone
    have h1 : 0 < (handshake (y.chan x.other d).handled).countP Message.isClose :=
      List.countP_pos_iff.mpr ⟨m', hhand, hcl⟩
    have h2 : 0 < (handshake (y.flow x c)).countP Message.isClose :=
      List.countP_pos_iff.mpr ⟨.close m, mem_handshake.mpr ⟨hm, rfl⟩, rfl⟩
    omega
  | openConfirm m =>
    -- what was handled first is the confirmation, and there is only one
    have hdir := ((spoken run hc).confirms m hsent).1
    have hconf : (y.chan x c).ConfirmsFirst :=
      Session.confirmsFirst (session_run (fun _ _ _ h => h) (fun _ _ => trivial) run x) c hc hdir
    have hone : (y.chan x c).sent.countP Message.isConfirm ≤ 1 :=
      Session.confirmsOnce (any_run run x) c hc
    rw [← count_handshake isConfirm_handshake, ← htold, List.countP_append] at hone
    have h2 : 0 < (handshake (y.flow x c)).countP Message.isConfirm :=
      List.countP_pos_iff.mpr ⟨.openConfirm m, mem_handshake.mpr ⟨hm, rfl⟩, rfl⟩
    cases hl : handshake (y.chan x.other d).handled with
    | nil => rw [hl] at hhand; cases hhand
    | cons m₀ l =>
      have hfirst : m₀.isConfirm = true := hconf.head (by rw [← htold, hl]; rfl)
      have h1 : 0 < (handshake (y.chan x.other d).handled).countP Message.isConfirm :=
        List.countP_pos_iff.mpr ⟨m₀, by rw [hl]; exact List.mem_cons_self, hfirst⟩
      omega

/-- A handshake message in flight finds the peer of its sender. -/
theorem Meets.dest (hr : (y.sess x.other).running = true) (hp : y.peer x c = some d) {m : Message}
    (hk : m.isHandshake = true) (ho : m.isOpen = false) (hm : m ∈ y.flow x c) :
    (y.sess x.other).dest m = some d := by
  have haddr := h.addressed run hp hk ho hm
  have hlive := h.live run hp hk hm
  have hi := inv run x.other
  refine Session.dest_eq_some.mpr ⟨by rw [haddr], ?_⟩
  rw [haddr, ChanList.getChan_eq hi.short]
  refine (hi.unlisted hr d ((Wired.of_run run).lt x c d hp).2).resolve_right fun he => ?_
  rw [chan] at hlive
  rw [hlive] at he
  cases he

/-- Whoever sent a handshake message with a channel id that is in flight has a peer. -/
theorem Meets.sender {p : Packet} (hp : p ∈ y.wire x) (hm : p.msg.channel.2 = true) :
    ∃ c d, p.src = some c ∧ p.msg ∈ y.flow x c ∧ y.peer x c = some d := by
  have hw := Wired.of_run run
  obtain ⟨c, hc, hs, -⟩ := hw.known x p hp
  have hin : p.msg ∈ y.flow x c := Session.mem_sentBy.mpr (by rwa [← hs])
  cases hpeer : y.peer x c with
  | some d => exact ⟨c, d, hs, hin, hpeer⟩
  | none =>
    have hal := h.unmet x c hc hpeer
    cases hdir : (y.chan x c).direction with
    | inbound =>
      obtain ⟨d, hd⟩ := hw.accepted x c hc hdir
      rw [hpeer] at hd
      cases hd
    | outbound =>
      -- it has sent its `OpenMessage` at most
      rw [hal.flow] at hin
      have hnone : ∀ q : Message → Bool, (∀ m, q m = true → m.isHandshake = true) →
          (y.chan x c).handled.any q = false := by
        intro q hq
        rw [← any_handshake hq, hal.handled]
        rfl
      rcases (System.opener run hc hdir).speaks _ hin with ho | hs | hs
      · cases hmsg : p.msg with
        | openMsg m => rw [hmsg] at hm; cases hm
        | _ => rw [hmsg] at ho; cases ho
      · rw [hnone _ isConfirm_handshake] at hs
        cases hs
      · rw [hnone _ isClose_handshake] at hs
        cases hs

/-- What a channel without a peer has on the wire is its `OpenMessage`. -/
theorem Meets.unmet_opens (hp : y.peer x c = none) {p : Packet} {ps : List Packet}
    (hwire : y.wire x = p :: ps) (hs : p.src = some c) : ∃ m, p.msg = .openMsg m := by
  have hin : p ∈ y.wire x := by rw [hwire]; exact List.mem_cons_self
  cases hmsg : p.msg with
  | openMsg m => exact ⟨m, rfl⟩
  | _ =>
    obtain ⟨e, d, he, -, hpeer⟩ := h.sender run hin (by rw [hmsg]; rfl)
    rw [hs] at he
    cases he
    rw [hp] at hpeer
    cases hpeer

/-- A handshake message that is delivered comes from the peer. -/
theorem Meets.own (hr : (y.sess x).running = true) {p : Packet} {ps : List Packet}
    (hw : y.wire x.other = p :: ps) (hk : p.msg.isHandshake = true)
    (hd : (y.sess x).dest p.msg = some c) : ∃ e, p.src = some e ∧ y.peer x c = some e := by
  have hm := (Session.dest_eq_some.mp hd).1
  obtain ⟨e, d, hs, hin, hp⟩ := h.sender run (p := p) (by rw [hw]; exact List.mem_cons_self) hm
  have ho : p.msg.isOpen = false := by
    cases hmsg : p.msg with
    | openMsg m => rw [hmsg] at hm; cases hm
    | _ => rfl
  have heq := h.dest run (by rwa [Side.other_other]) hp hk ho hin
  rw [Side.other_other, hd] at heq
  cases heq
  refine ⟨e, hs, ?_⟩
  have := (Wired.of_run run).symm _ _ _ hp
  rwa [Side.other_other] at this

end State

section Step

variable (run : Run next UsesConfirmed System.start y) (h : Meets y) (hm : Moves y a y')
  (hr : ∀ x, (y'.sess x).running = true)

/-- A loop that goes on was running before. -/
theorem Moves.running (hi : ∀ x, (y.sess x).Inv) (hp : ∀ x, (y.sess x).Plans) (hm : Moves y a y')
    (hr : (y'.sess x).running = true) : (y.sess x).running = true := by
  obtain ⟨out, -, hat⟩ := hm.side x
  cases hat with
  | still _ hs => rw [← hs]; exact hr
  | app _ _ ht => exact ((hi x).work (hp x) ht).running hr
  | recv _ _ ht => exact ((hi x).work (hp x) ht).running hr

include run hm hr

theorem running_before (x : Side) : (y.sess x).running = true :=
  hm.running (inv run) (fun x => Session.plans (any_run run x)) (hr x)

include h

/-- A step hands a channel the handshake messages it takes off the wire of the peer. -/
theorem Meets.handled_step (hp : y.peer x c = some d) :
    handshake (y'.chan x.other d).handled =
      handshake (y.chan x.other d).handled ++ handshake (Session.sentBy c (y.taken a x)) := by
  have hw := Wired.of_run run
  have hd := (hw.lt x c d hp).2
  have hr' := running_before run hm hr
  obtain ⟨out, -, hat⟩ := hm.side x.other
  by_cases ha : a = .deliver x.other
  · subst ha
    cases hat with
    | still ha => exact absurd rfl ha
    | app ha => cases ha
    | @recv p ps _ hwire ht =>
      have hears := ht.hears (hr x.other) hd
      have htaken : y.taken (.deliver x.other) x = [p] := by
        rw [Side.other_other] at hwire
        simp [taken, hwire]
      rw [chan, chan, hears, handshake_append, htaken]
      congr 1
      cases hk : p.msg.isHandshake with
      | false =>
        have hnone : handshake [p.msg] = [] := by simp [handshake, hk]
        rw [Session.sentBy_cons, Session.sentBy_nil]
        split <;> split <;> simp [hnone]
      | true =>
        rw [Session.sentBy_cons, Session.sentBy_nil]
        by_cases hs : p.src = some c
        · have hin : p.msg ∈ y.flow x c := by
            rw [Side.other_other] at hwire
            rw [flow, hwire, Session.sentBy_cons, if_pos hs]
            exact List.mem_cons_self
          have ho : p.msg.isOpen = false := by
            cases hmsg : p.msg with
            | openMsg m =>
              rw [hmsg] at hin
              rw [(hw.unpaired run hin).2] at hp
              cases hp
            | _ => rfl
          rw [if_pos hs, if_pos (h.dest run (hr' _) hp hk ho hin)]
        · rw [if_neg hs, if_neg]
          intro hdest
          obtain ⟨e, he, hback⟩ := h.own run (hr' _) hwire hk hdest
          rw [hw.symm x c d hp] at hback
          cases hback
          exact hs he
  · have hsame : (y'.chan x.other d).handled = (y.chan x.other d).handled :=
      hat.handled (inv run x.other) hd ha
    have htaken : y.taken a x = [] := by
      cases a with
      | app => rfl
      | deliver z =>
        rw [taken, if_neg]
        rintro rfl
        exact ha (by rw [Side.other_other])
    rw [hsame, htaken, Session.sentBy_nil, handshake_nil, List.append_nil]

theorem Meets.told_step (hp : y.peer x c = some d) : Told y' x c d := by
  obtain ⟨out, hwire, hat⟩ := hm.side x
  have hc := ((Wired.of_run run).lt x c d hp).1
  have hsent := hat.sent (inv run x) hc
  have hflow := congrArg (fun l => handshake (Session.sentBy c l)) hwire
  simp only [Session.sentBy_append, handshake_append] at hflow
  have htold := h.told x c d hp
  rw [Told] at htold ⊢
  calc handshake (y'.chan x.other d).handled ++ handshake (y'.flow x c)
      = handshake (y.chan x.other d).handled ++
          (handshake (Session.sentBy c (y.taken a x)) ++ handshake (y'.flow x c)) := by
        rw [h.handled_step run hm hr hp, List.append_assoc]
    _ = handshake (y.chan x.other d).handled ++ handshake (y.flow x c) ++
          handshake (Session.sentBy c out) := by
        rw [flow, ← hflow, List.append_assoc]
        rfl
    _ = handshake (y'.chan x c).sent := by rw [htold, hsent, handshake_append]

/-- A channel without a peer handles nothing of a handshake. -/
theorem Meets.unmet_handled (hp : y.peer x c = none) (hc : c < (y.sess x).fresh) :
    handshake (y'.chan x c).handled = [] := by
  have hal := h.unmet x c hc hp
  obtain ⟨out, -, hat⟩ := hm.side x
  by_cases ha : a = .deliver x
  · subst ha
    cases hat with
    | still ha => exact absurd rfl ha
    | app ha => cases ha
    | @recv p ps _ hwire ht =>
      have hears := ht.hears (hr x) hc
      rw [chan, hears, handshake_append, show handshake ((y.sess x).heap c).handled = [] from hal.handled,
        List.nil_append]
      split
      · next hd =>
        cases hk : p.msg.isHandshake with
        | false => simp [handshake, hk]
        | true =>
          obtain ⟨e, -, hback⟩ := h.own run (running_before run hm hr x) hwire hk hd
          rw [hp] at hback
          cases hback
      · rfl
  · have hsame : (y'.chan x c).handled = (y.chan x c).handled := hat.handled (inv run x) hc ha
    rw [hsame]
    exact hal.handled

/-- It stays without one while nothing of it is taken off the wire. -/
theorem Meets.unmet_step (hp : y.peer x c = none) (hc : c < (y.sess x).fresh)
    (ht : Session.sentBy c (y.taken a x) = []) : Unmet y' x c := by
  obtain ⟨out, hwire, hat⟩ := hm.side x
  have hflow := congrArg (Session.sentBy c) hwire
  rw [Session.sentBy_append, Session.sentBy_append, ht, List.nil_append] at hflow
  refine ⟨h.unmet_handled run hm hr hp hc, ?_⟩
  rw [hat.sent (inv run x) hc, ← (h.unmet x c hc hp).flow]
  exact hflow.symm

/-- The two ends of a new pair have told each other nothing but the `OpenMessage`. -/
theorem Meets.told_new {p : Packet} {ps : List Packet} {m : OpenMessage} {id : UInt32}
    (hp : y.peer x c = none) (hc : c < (y.sess x).fresh) (hwire : y.wire x = p :: ps)
    (ha : a = .deliver x.other) (hs : p.src = some c) (hmsg : p.msg = .openMsg m)
    (hn : y'.chan x.other (y.sess x.other).fresh = Session.inboundChannel m id) :
    Told y' x c (y.sess x.other).fresh ∧ Told y' x.other (y.sess x.other).fresh c := by
  obtain ⟨hflow, hsent⟩ := hm.delivers run hwire ha hs hc
  constructor
  · rw [Told, hn, hsent, ← (h.unmet x c hc hp).flow, hflow, hmsg, handshake_cons rfl]
    rfl
  · rw [Told, Side.other_other, h.unmet_handled run hm hr hp hc, hn,
      (Wired.of_run run).flow_new run hm (Nat.le_refl _)]
    rfl

theorem Meets.step : Meets y' := by
  have hw := Wired.of_run run
  constructor
  · intro x c d hp
    rcases hm.pairs fun x p => hw.src_ne_none x with
      ⟨hp', -, -⟩ | @⟨z, p, ps, m, id, c', ha, hwire, hmsg, hs, -, -, hn, hp'⟩
    · rw [hp'] at hp
      exact h.told_step run hm hr hp
    · obtain ⟨hlt, -, hnone, -⟩ := hw.opener run hwire hmsg hs
      have hnew := h.told_new run hm hr hnone hlt hwire (by rw [Side.other_other]; exact ha) hs hmsg
        (by rw [Side.other_other]; exact hn)
      rw [Side.other_other] at hnew
      rw [hp'] at hp
      split at hp
      · next heq =>
        obtain ⟨rfl, rfl⟩ := heq
        cases hp
        exact hnew.2
      · split at hp
        · next heq =>
          obtain ⟨rfl, rfl⟩ := heq
          cases hp
          exact hnew.1
        · exact h.told_step run hm hr hp
  · intro x c hc hp
    rcases Nat.lt_or_ge c (y.sess x).fresh with hlt | hge
    · have hnone : y.peer x c = none := by
        cases hcd : y.peer x c with
        | none => rfl
        | some d =>
          rw [hw.peer_keep run hm hcd] at hp
          cases hp
      exact h.unmet_step run hm hr hnone hlt
        (hw.untaken run hm hp fun p ps hwire hs => h.unmet_opens run hnone hwire hs)
    · cases hd : (y'.chan x c).direction with
      | inbound =>
        obtain ⟨d, hcd⟩ := (hw.pairing_step run hm).accepted _ _ hc hd
        rw [hcd] at hp
        cases hp
      | outbound =>
        obtain ⟨-, id, hid⟩ := hw.new_outbound hm hge hc hd
        exact ⟨by rw [hid]; rfl, by rw [hid, hw.flow_new run hm hge]; rfl⟩

end Step

/-- While both sessions run the handshakes reach the other end. -/
theorem Meets.of_run (run : Run next UsesConfirmed System.start y) :
    (∀ x, (y.sess x).running = true) → Meets y := by
  refine Run.invariant (I := fun y => (∀ x, (y.sess x).running = true) → Meets y) (fun _ => .start)
    (fun y a y' hr h _ hn hrun => ?_) run
  have hm := Moves.of_next hn
  exact (h (running_before hr hm hrun)).step hr hm hrun

section Quiet

variable (run : Run next UsesConfirmed System.start y) (hr : ∀ x, (y.sess x).running = true)
  (hwire : ∀ x, y.wire x = []) (hwait : ∀ x, (y.sess x).Waits)

include run hr hwire hwait

/-- In a state in which nothing moves, the peer of a channel that has sent a `CloseMessage`
has answered it and left the list. -/
theorem answers_close (hp : y.peer x c = some d) (hs : (y.chan x c).sent.any Message.isClose = true) :
    (y.chan x.other d).sent.any Message.isClose = true ∧ ¬ (y.sess x.other).Listed d := by
  have hd := ((Wired.of_run run).lt x c d hp).2
  have hlife := Session.lives (any_run run x.other) d hd
  obtain ⟨hreply, hmsg, -⟩ := (inv run x.other).waits (hwait x.other) d
  have hflow : y.flow x c = [] := by rw [flow, hwire]; rfl
  have hheard := ((Meets.of_run run hr).told x c d hp).arrived hflow isClose_handshake hs
  constructor
  · exact (hlife.answered hheard).resolve_left hreply
  · exact hlife.unlisted (inv run x.other) hheard hmsg

/-- A channel that is marked closed at one end is listed at neither. -/
theorem ends_of_close (hp : y.peer x c = some d) (hcl : (y.chan x c).sentClose = true) :
    ¬ (y.sess x).Listed c ∧ ¬ (y.sess x.other).Listed d := by
  have hw := Wired.of_run run
  have hsent := (Session.lives (any_run run x) c (hw.lt x c d hp).1).flagged (hr x) hcl
  obtain ⟨hback, hgone⟩ := answers_close run hr hwire hwait hp hsent
  have := answers_close run hr hwire hwait (hw.symm x c d hp) hback
  rw [Side.other_other] at this
  exact ⟨this.2, hgone⟩

omit hwait in
/-- A channel whose `OpenMessage` was encoded has a peer. -/
theorem has_peer (hc : c < (y.sess x).fresh) (ho : (y.chan x c).sent.any Message.isOpen = true) :
    ∃ d, y.peer x c = some d := by
  cases hp : y.peer x c with
  | some d => exact ⟨d, rfl⟩
  | none =>
    have hflow := ((Meets.of_run run hr).unmet x c hc hp).flow
    rw [flow, hwire] at hflow
    rw [← hflow] at ho
    cases ho

end Quiet

/-! ## What calls and `Accept` do to a channel -/

/-- A step of a call is a step of its channel. -/
theorem call_step {b : Channel.Step} (h : y.next (.app x (.call c b)) = some y') :
    c < (y.sess x).fresh ∧ ∃ r, (y.chan x c).step b = some r ∧ y'.chan x c = r.1.sends r.2 := by
  cases Moves.of_next h with
  | app ha hs ht =>
    cases ht with
    | @call _ _ r hc hstep =>
      refine ⟨hc, r, hstep, ?_⟩
      simp [chan]

theorem register_step (h : y.next (.app x .register) = some y') :
    (y'.sess x).fresh = (y.sess x).fresh + 1 ∧
      ∃ id, y'.chan x (y.sess x).fresh = Session.outboundChannel id := by
  cases Moves.of_next h with
  | app ha hs ht =>
    cases ht with
    | register hl =>
      simp only [chan, Function.update_self]
      exact ⟨rfl, _, Session.added_new (y.sess x) Session.outboundChannel⟩

theorem Moves.held (hm : Moves y a y') (hi : (y.sess x).Inv) (hc : c < (y.sess x).fresh)
    (hh : (y.chan x c).held = true) : (y'.chan x c).held = true := by
  obtain ⟨out, -, hat⟩ := hm.side x
  rcases hat.changes hi hc with heq | ⟨b, hch, -⟩
  · rw [heq]
    exact hh
  · exact hch.held.1 hh

theorem Moves.registered (hm : Moves y a y') (hi : (y.sess x).Inv) (hc : c < (y.sess x).fresh)
    (ho : (y'.chan x c).opening = .registered) : (y.chan x c).opening = .registered := by
  obtain ⟨out, -, hat⟩ := hm.side x
  rcases hat.changes hi hc with heq | ⟨b, hch, -⟩
  · rwa [heq] at ho
  · exact hch.registered ho

/-- An accepted channel is held once `Accept` has returned it. -/
theorem held_before {ok : System → Act → Prop} (run : Run next ok System.start y) (hm : Moves y a y')
    (hc : c < (y.sess x).fresh) (hd : (y.chan x c).direction = .inbound)
    (hh : (y'.chan x c).held = true) :
    (y.chan x c).held = true ∨ (a = .app x .accept ∧ (y.sess x).incoming.head? = some c) := by
  have hready := (System.acceptor run hc hd).ready
  have hi := inv run x
  obtain ⟨out, -, hat⟩ := hm.side x
  have call : ∀ b, Session.Trans (y.sess x) b (y'.sess x) out → b ≠ .accept →
      (y.chan x c).held = true := by
    intro b ht hb
    refine ((hi.changes ht hc).held.2 hh).resolve_right ?_
    rintro (hacc | hwait)
    · exact hb hacc
    · rw [chan] at hready
      rw [hready] at hwait
      cases hwait
  cases hat with
  | still _ hs =>
    rw [chan, hs] at hh
    exact Or.inl hh
  | recv _ _ ht => exact Or.inl (call _ ht (by simp))
  | @app b _ ha hr ht =>
    by_cases hb : b = .accept
    · subst hb
      generalize hs : y'.sess x = s' at ht
      cases ht with
      | @accept c' incoming hin =>
        by_cases heq : c = c'
        · subst heq
          exact Or.inr ⟨ha, by rw [hin]; rfl⟩
        · left
          rw [chan, hs] at hh
          simpa [chan, heq] using hh
    · exact Or.inl (call b ht hb)

/-- A channel that is new is not held. -/
theorem not_held_new (hm : Moves y a y') (hc : (y.sess x).fresh ≤ c) (hc' : c < (y'.sess x).fresh) :
    (y'.chan x c).held = false := by
  obtain ⟨out, -, hat⟩ := hm.side x
  rcases hat.new hc hc' with ⟨id, hid⟩ | ⟨m, id, hid⟩
  · rw [hid]
    rfl
  · rw [hid]
    rfl

/-- Nothing can be read from an accepted channel before its confirmation. -/
theorem read_confirmed {ok : System → Act → Prop} (run : Run next ok System.start y)
    (hr : (y.sess x).running = true) (hc : c < (y.sess x).fresh)
    (hd : (y.chan x c).direction = .inbound) {n : Nat} (hn : 0 < n) {ch : Channel}
    (hread : (y.chan x c).Read n = some ch) : (y.chan x c).sent.any Message.isConfirm = true := by
  by_contra hno
  have hno : (y.chan x c).sent.any Message.isConfirm = false := by simpa using hno
  have hacc := System.acceptor run hc hd
  obtain ⟨hempty, -⟩ := hacc.untouched (accounts run hc) hno
  obtain ⟨m, rest, hh, -, -⟩ := hacc.opened
  have hlen := hacc.early hno
  rw [hh, List.length_cons, Nat.add_eq_right, List.length_eq_zero_iff] at hlen
  have hopen : (y.chan x c).pending.closed = false := by
    by_contra hcl
    have hcl : (y.chan x c).pending.closed = true := by simpa using hcl
    have hend := (Session.endsOfStream (any_run run x) c hc).closed hcl
    rw [show ((y.sess x).heap c).handled = [.openMsg m] by rw [← hlen]; exact hh] at hend
    rcases hend with hend | hend | hend
    · cases hend
    · cases hend
    · rw [Session.Dropped, hr] at hend
      exact absurd hend.1 (by simp)
  rw [Channel.Read, Buffer.Read_empty hn hempty, hopen] at hread
  cases hread

end System

end Qtalk.Mux
