import Qtalk.System.System

/-!
# What is on the wire

Facts about every run of the system, whatever the application does: each packet in flight
was sent for a channel that exists, the pairing of channels is one to one and pairs
channels of opposite direction, and every accepted channel is paired.
-/

namespace Qtalk.Mux
open Qtalk.Codec Qtalk.Lib

namespace Session

@[simp] theorem sentBy_nil (c : Nat) : sentBy c [] = [] := rfl

@[simp] theorem sentBy_append (c : Nat) (l l' : List Packet) :
    sentBy c (l ++ l') = sentBy c l ++ sentBy c l' := by
  simp [sentBy]

theorem sentBy_cons (c : Nat) (p : Packet) (l : List Packet) :
    sentBy c (p :: l) = if p.src = some c then p.msg :: sentBy c l else sentBy c l := by
  simp only [sentBy, List.filter_cons, decide_eq_true_eq]
  split <;> rfl

theorem mem_sentBy {c : Nat} {m : Message} {l : List Packet} :
    m ∈ sentBy c l ↔ ⟨some c, m⟩ ∈ l := by
  simp only [sentBy, List.mem_map, List.mem_filter, decide_eq_true_eq]
  constructor
  · rintro ⟨⟨src, msg⟩, ⟨hp, rfl⟩, rfl⟩
    exact hp
  · exact fun h => ⟨_, ⟨h, rfl⟩, rfl⟩

end Session

namespace System

variable {y y' : System} {a : Act} {z : Side} {out : List Packet}

theorem At.fresh (h : At y y' a z out) : (y.sess z).fresh ≤ (y'.sess z).fresh := by
  cases h with
  | still _ hs => exact Nat.le_of_eq (by rw [hs])
  | app _ _ ht => rcases ht.fresh with hf | ⟨hf, -⟩ <;> omega
  | recv _ _ ht => rcases ht.fresh with hf | ⟨hf, -⟩ <;> omega

theorem At.extends (h : At y y' a z out) (hi : (y.sess z).Inv) {c : Nat}
    (hc : c < (y.sess z).fresh) : Channel.Extends (y.chan z c) (y'.chan z c) := by
  cases h with
  | still _ hs => rw [chan, chan, hs]; exact .refl _
  | app _ _ ht => exact (hi.changes ht hc).extends
  | recv _ _ ht => exact (hi.changes ht hc).extends

theorem At.sent (h : At y y' a z out) (hi : (y.sess z).Inv) {c : Nat} (hc : c < (y.sess z).fresh) :
    (y'.chan z c).sent = (y.chan z c).sent ++ Session.sentBy c out := by
  cases h with
  | still _ hs => rw [chan, chan, hs, Session.sentBy_nil, List.append_nil]
  | app _ _ ht => exact (hi.changes ht hc).sent
  | recv _ _ ht => exact (hi.changes ht hc).sent

theorem At.changes (h : At y y' a z out) (hi : (y.sess z).Inv) {c : Nat}
    (hc : c < (y.sess z).fresh) : y'.chan z c = y.chan z c ∨
      ∃ b, Session.Changes (y.sess z) (y'.sess z) b out c ∧
        (a = .app z b ∨ ∃ m, b = .recv (.ok m)) := by
  cases h with
  | still _ hs => exact .inl (by rw [chan, chan, hs])
  | app ha _ ht => exact .inr ⟨_, hi.changes ht hc, .inl ha⟩
  | recv _ _ ht => exact .inr ⟨_, hi.changes ht hc, .inr ⟨_, rfl⟩⟩

theorem At.new (h : At y y' a z out) {c : Nat} (hc : (y.sess z).fresh ≤ c)
    (hc' : c < (y'.sess z).fresh) : (∃ id, y'.chan z c = Session.outboundChannel id) ∨
      ∃ m id, y'.chan z c = Session.inboundChannel m id := by
  have key : ∀ b out, Session.Trans (y.sess z) b (y'.sess z) out →
      (∃ id, y'.chan z c = Session.outboundChannel id) ∨
        ∃ m id, y'.chan z c = Session.inboundChannel m id := by
    intro b out ht
    rcases ht.fresh with hf | ⟨hf, hn⟩
    · omega
    · obtain rfl : c = (y.sess z).fresh := by omega
      rcases hn with ⟨-, id, hn⟩ | ⟨m, id, -, hn⟩
      · exact .inl ⟨id, hn⟩
      · exact .inr ⟨m, id, hn⟩
  cases h with
  | still _ hs =>
    rw [hs] at hc'
    exact absurd hc' (Nat.not_lt.mpr hc)
  | app _ _ ht => exact key _ _ ht
  | recv _ _ ht => exact key _ _ ht

theorem Moves.fresh (hm : Moves y a y') (x : Side) : (y.sess x).fresh ≤ (y'.sess x).fresh := by
  obtain ⟨out, -, hat⟩ := hm.side x
  exact hat.fresh

theorem Moves.extends (hm : Moves y a y') {x : Side} (hi : (y.sess x).Inv) {c : Nat}
    (hc : c < (y.sess x).fresh) : Channel.Extends (y.chan x c) (y'.chan x c) := by
  obtain ⟨out, -, hat⟩ := hm.side x
  exact hat.extends hi hc

theorem Moves.taken (hm : Moves y a y') (x : Side) (c : Nat) : Session.sentBy c (y.taken a x) = [] ∨
    ∃ p ps, a = .deliver x.other ∧ y.wire x = p :: ps ∧ p.src = some c := by
  cases hm with
  | app => exact .inl rfl
  | @deliver z p ps s hwire =>
    by_cases hx : x = z.other
    · subst hx
      by_cases hs : p.src = some c
      · exact .inr ⟨p, ps, by simp, hwire, hs⟩
      · left
        simp [taken, hwire, Session.sentBy_cons, hs]
    · left
      rw [taken, if_neg hx, Session.sentBy_nil]

/-- Channels are paired one to one, an opened with an accepted one, and every accepted channel
is paired. -/
structure Pairing (y : System) : Prop where
  lt : ∀ x c d, y.peer x c = some d → c < (y.sess x).fresh ∧ d < (y.sess x.other).fresh
  symm : ∀ x c d, y.peer x c = some d → y.peer x.other d = some c
  opposite : ∀ x c d, y.peer x c = some d → (y.chan x c).direction ≠ (y.chan x.other d).direction
  accepted : ∀ x, ∀ c < (y.sess x).fresh, (y.chan x c).direction = .inbound →
    ∃ d, y.peer x c = some d

namespace Pairing

/-- Of two paired channels one was opened and the other accepted. -/
theorem inbound_iff (h : y.Pairing) {x : Side} {c d : Nat} (hp : y.peer x c = some d) :
    (y.chan x c).direction = .inbound ↔ (y.chan x.other d).direction = .outbound := by
  have hne := h.opposite x c d hp
  cases hc : (y.chan x c).direction with
  | inbound =>
    cases hd : (y.chan x.other d).direction with
    | inbound => rw [hc, hd] at hne; exact absurd rfl hne
    | outbound => simp
  | outbound =>
    cases hd : (y.chan x.other d).direction with
    | inbound => simp
    | outbound => rw [hc, hd] at hne; exact absurd rfl hne

theorem outbound_iff (h : y.Pairing) {x : Side} {c d : Nat} (hp : y.peer x c = some d) :
    (y.chan x c).direction = .outbound ↔ (y.chan x.other d).direction = .inbound := by
  have hback := h.inbound_iff (h.symm x c d hp)
  rw [Side.other_other] at hback
  exact hback.symm

theorem peer_fresh (h : y.Pairing) {c : Nat} (hc : (y.sess z).fresh ≤ c) : y.peer z c = none :=
  Option.eq_none_iff_forall_ne_some.mpr fun d hd => absurd (h.lt z c d hd).1 (Nat.not_lt.mpr hc)

/-- An `OpenMessage` that the step delivers comes from a channel that was opened and is not
paired. -/
def Asks (y : System) (a : Act) : Prop :=
  ∀ x p ps m c, a = .deliver x → y.wire x.other = p :: ps → p.msg = .openMsg m → p.src = some c →
    c < (y.sess x.other).fresh ∧ (y.chan x.other c).direction = .outbound ∧ y.peer x.other c = none

section Step

variable (h : y.Pairing) (hs : Pairs y y' a) (hask : Asks y a)

include h hs hask

/-- Pairs are for good. -/
theorem keep {x : Side} {c d : Nat} (hcd : y.peer x c = some d) : y'.peer x c = some d := by
  rcases hs with ⟨hp, -, -⟩ | ⟨ha, hw, hmsg, hsrc, hf, ho, hn, hp⟩
  · rw [hp, hcd]
  · obtain ⟨-, -, hnone⟩ := hask _ _ _ _ _ ha hw hmsg hsrc
    rw [hp, if_neg, if_neg, hcd]
    · rintro ⟨rfl, rfl⟩
      rw [hnone] at hcd
      cases hcd
    · rintro ⟨rfl, rfl⟩
      exact absurd (h.lt _ _ _ hcd).1 (Nat.lt_irrefl _)

variable (hext : ∀ x, (y.sess x).fresh ≤ (y'.sess x).fresh ∧
  ∀ c < (y.sess x).fresh, Channel.Extends (y.chan x c) (y'.chan x c))

include hext

omit h in
/-- A pair is an old one, or that of an `OpenMessage` the step has delivered. -/
theorem new_pair {z : Side} {e v : Nat} (hv : y'.peer z e = some v) :
    y.peer z e = some v ∨ (e < (y'.sess z).fresh ∧ v < (y'.sess z.other).fresh ∧
      y'.peer z.other v = some e ∧ (y'.chan z e).direction ≠ (y'.chan z.other v).direction) := by
  rcases hs with ⟨hp, -, -⟩ | ⟨ha, hw, hmsg, hsrc, hf, ho, hn, hp⟩
  · rw [hp] at hv
    exact .inl hv
  · rename_i x p ps m id c
    obtain ⟨hc, hout, -⟩ := hask _ _ _ _ _ ha hw hmsg hsrc
    have hnew : y'.peer x (y.sess x).fresh = some c := by rw [hp, if_pos ⟨rfl, rfl⟩]
    have hback : y'.peer x.other c = some (y.sess x).fresh := by
      rw [hp, if_neg (by simp), if_pos ⟨rfl, rfl⟩]
    have hin : (y'.chan x (y.sess x).fresh).direction = .inbound := by rw [hn]; rfl
    have hout' : (y'.chan x.other c).direction = .outbound :=
      ((hext x.other).2 c hc).direction.trans hout
    have hlt : (y.sess x).fresh < (y'.sess x).fresh := by omega
    have hclt := Nat.lt_of_lt_of_le hc (hext x.other).1
    rw [hp] at hv
    split at hv
    · next heq =>
      obtain ⟨rfl, rfl⟩ := heq
      cases hv
      exact .inr ⟨hlt, hclt, hback, by simp [hin, hout']⟩
    · split at hv
      · next heq =>
        obtain ⟨rfl, rfl⟩ := heq
        cases hv
        rw [Side.other_other]
        exact .inr ⟨hclt, hlt, hnew, by simp [hin, hout']⟩
      · exact .inl hv

/-- Nothing else than an `OpenMessage` accepts a channel. -/
theorem accepted_step {x : Side} {c : Nat} (hc : c < (y'.sess x).fresh)
    (hd : (y'.chan x c).direction = .inbound) : ∃ d, y'.peer x c = some d := by
  by_cases hlt : c < (y.sess x).fresh
  · rw [((hext x).2 c hlt).direction] at hd
    obtain ⟨d, hcd⟩ := h.accepted x c hlt hd
    exact ⟨d, h.keep hs hask hcd⟩
  · rcases hs with ⟨-, hn, -⟩ | ⟨-, -, -, -, hf, ho, -, hp⟩
    · obtain ⟨id, heq⟩ := hn x c (Nat.le_of_not_lt hlt) hc
      rw [heq] at hd
      cases hd
    · rename_i z p ps m id c'
      rcases z.eq_or_other x with rfl | rfl
      · obtain rfl : c = (y.sess x).fresh := by omega
        exact ⟨c', by rw [hp, if_pos ⟨rfl, rfl⟩]⟩
      · rw [ho] at hc
        exact absurd hc hlt

theorem step : y'.Pairing := by
  refine ⟨fun x c d hcd => ?_, fun x c d hcd => ?_, fun x c d hcd => ?_,
    fun x c hc hd => h.accepted_step hs hask hext hc hd⟩
  · rcases new_pair hs hask hext hcd with hold | ⟨hc, hd, -⟩
    · obtain ⟨hc, hd⟩ := h.lt x c d hold
      exact ⟨Nat.lt_of_lt_of_le hc (hext x).1, Nat.lt_of_lt_of_le hd (hext x.other).1⟩
    · exact ⟨hc, hd⟩
  · rcases new_pair hs hask hext hcd with hold | ⟨-, -, hback, -⟩
    · exact h.keep hs hask (h.symm x c d hold)
    · exact hback
  · rcases new_pair hs hask hext hcd with hold | ⟨-, -, -, hne⟩
    · obtain ⟨hc, hd⟩ := h.lt x c d hold
      rw [((hext x).2 c hc).direction, ((hext x.other).2 d hd).direction]
      exact h.opposite x c d hold
    · exact hne

end Step

end Pairing

/-- What holds in every run. -/
structure Wired (y : System) : Prop where
  /-- the packets in flight were sent for channels that exist -/
  known : ∀ x, ∀ p ∈ y.wire x, ∃ c < (y.sess x).fresh, p.src = some c ∧ p.msg ∈ (y.chan x c).sent
  lt : ∀ x c d, y.peer x c = some d → c < (y.sess x).fresh ∧ d < (y.sess x.other).fresh
  symm : ∀ x c d, y.peer x c = some d → y.peer x.other d = some c
  opposite : ∀ x c d, y.peer x c = some d → (y.chan x c).direction ≠ (y.chan x.other d).direction
  accepted : ∀ x, ∀ c < (y.sess x).fresh, (y.chan x c).direction = .inbound →
    ∃ d, y.peer x c = some d
  /-- it takes an `OpenMessage` to pair a channel -/
  opens : ∀ x, ∀ c < (y.sess x).fresh, (y.chan x c).direction = .outbound →
    (y.flow x c).countP Message.isOpen + (y.peer x c).toList.length ≤
      (y.chan x c).sent.countP Message.isOpen
  noReject : ∀ x id, .reject id ∉ (y.sess x).ops

theorem Wired.start : start.Wired where
  known := by simp [System.start]
  lt := by simp [System.start]
  symm := by simp [System.start]
  opposite := by simp [System.start]
  accepted := by simp [System.start, newSession]
  opens := by simp [System.start, newSession]
  noReject := by simp [System.start, newSession]

theorem Wired.pairing (h : y.Wired) : y.Pairing := ⟨h.lt, h.symm, h.opposite, h.accepted⟩

theorem Wired.inbound_iff (h : y.Wired) {x : Side} {c d : Nat} (hp : y.peer x c = some d) :
    (y.chan x c).direction = .inbound ↔ (y.chan x.other d).direction = .outbound :=
  h.pairing.inbound_iff hp

theorem Wired.outbound_iff (h : y.Wired) {x : Side} {c d : Nat} (hp : y.peer x c = some d) :
    (y.chan x c).direction = .outbound ↔ (y.chan x.other d).direction = .inbound :=
  h.pairing.outbound_iff hp

theorem Wired.mem_flow (h : y.Wired) {c : Nat} {m : Message} (hm : m ∈ y.flow z c) :
    c < (y.sess z).fresh ∧ m ∈ (y.chan z c).sent := by
  obtain ⟨c', hc, hs, hin⟩ := h.known z _ (Session.mem_sentBy.mp hm)
  cases hs
  exact ⟨hc, hin⟩

theorem Wired.src_ne_none (h : y.Wired) (x : Side) {p : Packet} (hp : p ∈ y.wire x) : p.src ≠ none := by
  obtain ⟨c, -, hs, -⟩ := h.known x p hp
  rw [hs]
  nofun

theorem Wired.peer_fresh (h : y.Wired) {c : Nat} (hc : (y.sess z).fresh ≤ c) : y.peer z c = none :=
  h.pairing.peer_fresh hc

section Step

variable {ok : System → Act → Prop} (run : Run next ok System.start y) (h : y.Wired)

include run h

/-- Whoever sent an `OpenMessage` that is in flight is not paired yet. -/
theorem Wired.unpaired {c : Nat} {m : OpenMessage} (hm : .openMsg m ∈ y.flow z c) :
    (y.chan z c).direction = .outbound ∧ y.peer z c = none := by
  obtain ⟨hc, hin⟩ := h.mem_flow hm
  have hd := ((spoken run hc).opens m hin).1
  refine ⟨hd, ?_⟩
  have honce := (opener run hc hd).once
  have hflow : 0 < (y.flow z c).countP Message.isOpen := List.countP_pos_iff.mpr ⟨_, hm, rfl⟩
  have := h.opens z c hc hd
  cases hp : y.peer z c with
  | none => rfl
  | some d =>
    rw [hp, Option.toList_some, List.length_singleton] at this
    omega

/-- The size in an `OpenMessage` in flight is the one `Open` sends. -/
theorem Wired.size_ok {p : Packet} (hp : p ∈ y.wire z) {m : OpenMessage} (hm : p.msg = .openMsg m) :
    ¬ (m.maxPacketSize < minPacketLength ∨ m.maxPacketSize > maxPacketLength) := by
  obtain ⟨c, hc, -, hin⟩ := h.known z p hp
  rw [hm] at hin
  rw [((spoken run hc).opens m hin).2]
  exact channelMaxPacket_ok

omit h in
/-- A packet that is delivered leaves the wire, and its channel sends nothing meanwhile. -/
theorem Moves.delivers (hm : Moves y a y') {x : Side} {c : Nat} {p : Packet} {ps : List Packet}
    (hwire : y.wire x = p :: ps) (ha : a = .deliver x.other) (hs : p.src = some c)
    (hc : c < (y.sess x).fresh) :
    y.flow x c = p.msg :: y'.flow x c ∧ (y'.chan x c).sent = (y.chan x c).sent := by
  obtain ⟨out, hbal, hat⟩ := hm.side x
  have hout : Session.sentBy c out = [] := by
    cases hat with
    | still => rfl
    | app ha' => rw [ha] at ha'; cases ha'
    | recv => rfl
  have htaken : y.taken a x = [p] := by simp [ha, System.taken, hwire]
  constructor
  · have hsplit := congrArg (Session.sentBy c) hbal
    rw [Session.sentBy_append, Session.sentBy_append, hout, List.append_nil, htaken,
      Session.sentBy_cons, if_pos hs] at hsplit
    exact hsplit
  · rw [hat.sent (inv run x) hc, hout, List.append_nil]

theorem Wired.known_step (hm : Moves y a y') (x : Side) {p : Packet} (hp : p ∈ y'.wire x) :
    ∃ c < (y.sess x).fresh, p.src = some c ∧ p.msg ∈ (y'.chan x c).sent := by
  obtain ⟨out, hw, hat⟩ := hm.side x
  have hi := inv run x
  have hin : p ∈ y.wire x ++ out := by
    rw [hw]
    exact List.mem_append_right _ hp
  rcases List.mem_append.mp hin with hin | hin
  · obtain ⟨c, hc, hs, hsent⟩ := h.known x p hin
    exact ⟨c, hc, hs, (hat.extends hi hc).sent.subset hsent⟩
  · obtain ⟨c, hc, hs, hsent⟩ : ∃ c < (y.sess x).fresh, p.src = some c ∧
        p.msg ∈ Session.sentBy c out := by
      cases hat with
      | still => cases hin
      | app _ _ ht => exact hi.out_src ht (h.noReject x) hin
      | recv => cases hin
    refine ⟨c, hc, hs, ?_⟩
    rw [hat.sent hi hc]
    exact List.mem_append_right _ hsent

theorem Wired.flow_new (hm : Moves y a y') {x : Side} {c : Nat} (hc : (y.sess x).fresh ≤ c) :
    y'.flow x c = [] := by
  refine List.eq_nil_iff_forall_not_mem.mpr fun m hin => ?_
  obtain ⟨c', hc', hs, -⟩ := h.known_step run hm x (Session.mem_sentBy.mp hin)
  cases hs
  exact absurd hc' (Nat.not_lt.mpr hc)

theorem Wired.noReject_step (hm : Moves y a y') (x : Side) (id : UInt32) :
    .reject id ∉ (y'.sess x).ops := by
  intro hid
  obtain ⟨out, -, hat⟩ := hm.side x
  cases hat with
  | still _ hs => exact h.noReject x id (hs ▸ hid)
  | app ha hr ht =>
    rcases ht.rejects hid with hid | ⟨m, rfl, -⟩
    · exact h.noReject x id hid
    · cases hr
  | @recv p ps ha hw ht =>
    rcases ht.rejects hid with hid | ⟨m, hmsg, hbad⟩
    · exact h.noReject x id hid
    · exact h.size_ok run (by rw [hw]; exact List.mem_cons_self) (by simpa using hmsg) hbad

/-- The sender of the `OpenMessage` that a step takes off the wire. -/
theorem Wired.opener {x : Side} {p : Packet} {ps : List Packet} {m : OpenMessage} {c : Nat}
    (hw : y.wire x.other = p :: ps) (hm : p.msg = .openMsg m) (hs : p.src = some c) :
    c < (y.sess x.other).fresh ∧ (y.chan x.other c).direction = .outbound ∧
      y.peer x.other c = none ∧ y.flow x.other c = .openMsg m :: Session.sentBy c ps := by
  have hflow : y.flow x.other c = .openMsg m :: Session.sentBy c ps := by
    rw [flow, hw, Session.sentBy_cons, if_pos hs, hm]
  have hin : .openMsg m ∈ y.flow x.other c := by rw [hflow]; exact List.mem_cons_self
  obtain ⟨hd, hp⟩ := h.unpaired run hin
  exact ⟨(h.mem_flow hin).1, hd, hp, hflow⟩

theorem Wired.asks (a : Act) : Pairing.Asks y a := by
  rintro x p ps m c - hw hm hs
  obtain ⟨hc, hd, hp, -⟩ := h.opener run hw hm hs
  exact ⟨hc, hd, hp⟩

/-- Pairs are for good. -/
theorem Wired.peer_keep (hm : Moves y a y') {x : Side} {c d : Nat} (hcd : y.peer x c = some d) :
    y'.peer x c = some d :=
  h.pairing.keep (hm.pairs fun x _ => h.src_ne_none x) (h.asks run a) hcd

/-- A channel that is not paired has had no `OpenMessage` taken off the wire. -/
theorem Wired.untaken (hm : Moves y a y') {x : Side} {c : Nat} (hp : y'.peer x c = none)
    (hopen : ∀ p ps, y.wire x = p :: ps → p.src = some c → ∃ m, p.msg = .openMsg m) :
    Session.sentBy c (y.taken a x) = [] := by
  refine (hm.taken x c).resolve_right ?_
  rintro ⟨p, ps, ha, hwire, hs⟩
  obtain ⟨m, hmsg⟩ := hopen p ps hwire hs
  rcases hm.pairs fun x _ => h.src_ne_none x with ⟨-, -, hbad⟩ | ⟨ha', hwire', -, hs', -, -, -, hp'⟩
  · have hsize := hbad x.other p ps m ha (by rwa [Side.other_other]) hmsg
    exact h.size_ok run (by rw [hwire]; exact List.mem_cons_self) hmsg hsize
  · rename_i z q qs m' id c'
    rw [ha] at ha'
    cases ha'
    rw [Side.other_other, hwire] at hwire'
    cases hwire'
    rw [hs] at hs'
    cases hs'
    rw [hp', if_neg (by simp), if_pos ⟨(Side.other_other x).symm, rfl⟩] at hp
    cases hp

omit run in
/-- A channel that a step opens has no peer yet. -/
theorem Wired.new_outbound (hm : Moves y a y') {x : Side} {c : Nat} (hge : (y.sess x).fresh ≤ c)
    (hc : c < (y'.sess x).fresh) (hd : (y'.chan x c).direction = .outbound) :
    y'.peer x c = none ∧ ∃ id, y'.chan x c = Session.outboundChannel id := by
  rcases hm.pairs fun x _ => h.src_ne_none x with ⟨hp, hn, -⟩ | ⟨-, -, -, -, hf, ho, hn, -⟩
  · rw [hp]
    exact ⟨h.peer_fresh hge, hn x c hge hc⟩
  · rename_i z p ps m id c'
    rcases z.eq_or_other x with rfl | rfl
    · obtain rfl : c = (y.sess x).fresh := by omega
      rw [hn] at hd
      cases hd
    · rw [ho] at hc
      exact absurd hc (Nat.not_lt.mpr hge)

theorem Wired.pairing_step (hm : Moves y a y') : y'.Pairing :=
  h.pairing.step (hm.pairs fun x _ => h.src_ne_none x) (h.asks run a)
    fun x => ⟨hm.fresh x, fun _ hc => hm.extends (inv run x) hc⟩

omit h in
/-- The balance of `OpenMessage`s, in flight and sent. -/
theorem Moves.opens_balance (hm : Moves y a y') {x : Side} {c : Nat} (hc : c < (y.sess x).fresh) :
    ∃ n, (y.flow x c).countP Message.isOpen + n =
        (Session.sentBy c (y.taken a x)).countP Message.isOpen + (y'.flow x c).countP Message.isOpen ∧
      (y'.chan x c).sent.countP Message.isOpen = (y.chan x c).sent.countP Message.isOpen + n := by
  obtain ⟨out, hw, hat⟩ := hm.side x
  refine ⟨(Session.sentBy c out).countP Message.isOpen, ?_, ?_⟩
  · rw [← List.countP_append, ← List.countP_append, flow, flow, ← Session.sentBy_append, hw,
      Session.sentBy_append]
  · rw [hat.sent (inv run x) hc, List.countP_append]

theorem Wired.opens_step (hm : Moves y a y') {x : Side} {c : Nat} (hc : c < (y'.sess x).fresh)
    (hd : (y'.chan x c).direction = .outbound) :
    (y'.flow x c).countP Message.isOpen + (y'.peer x c).toList.length ≤
      (y'.chan x c).sent.countP Message.isOpen := by
  by_cases hlt : c < (y.sess x).fresh
  · obtain ⟨n, h1, h2⟩ := hm.opens_balance run hlt
    rw [(hm.extends (inv run x) hlt).direction] at hd
    have hold := h.opens x c hlt hd
    rcases hm.pairs fun x _ => h.src_ne_none x with ⟨hp, -, -⟩ | ⟨ha, hw, hmsg, hs, -, -, -, hp⟩
    · rw [hp]
      omega
    · rename_i z p ps m id c'
      rw [hp, if_neg (by rintro ⟨rfl, rfl⟩; exact absurd hlt (Nat.lt_irrefl _))]
      split
      · -- the message that pairs the channel leaves the wire
        next heq =>
        obtain ⟨rfl, rfl⟩ := heq
        obtain ⟨-, -, hnone, -⟩ := h.opener run hw hmsg hs
        have htaken : y.taken a z.other = [p] := by simp [ha, taken, hw]
        rw [htaken, Session.sentBy_cons, if_pos hs, hmsg] at h1
        simp only [Session.sentBy_nil, List.countP_cons, List.countP_nil, Message.isOpen, if_true] at h1
        rw [hnone] at hold
        simp only [Option.toList_none, List.length_nil, Option.toList_some, List.length_cons] at hold ⊢
        omega
      · omega
  · have hle := Nat.le_of_not_lt hlt
    rw [(h.new_outbound hm hle hc hd).1, h.flow_new run hm hle]
    exact Nat.zero_le _

theorem Wired.step (hm : Moves y a y') : y'.Wired := by
  have hp := h.pairing_step run hm
  refine ⟨fun x p hp => ?_, hp.lt, hp.symm, hp.opposite, hp.accepted,
    fun x c hc hd => h.opens_step run hm hc hd, h.noReject_step run hm⟩
  obtain ⟨c, hc, hs, hin⟩ := h.known_step run hm x hp
  exact ⟨c, Nat.lt_of_lt_of_le hc (hm.fresh x), hs, hin⟩

end Step

/-- The peer a channel gets is new. -/
theorem Wired.new_peer (h : y.Wired) (hm : Moves y a y') {x : Side} {c d : Nat}
    (hd : (y'.chan x c).direction = .outbound) (hn : y.peer x c = none)
    (hp : y'.peer x c = some d) : ∃ m id, y'.chan x.other d = Session.inboundChannel m id := by
  rcases hm.pairs fun x _ => h.src_ne_none x with
    ⟨hp', -, -⟩ | @⟨z, p, ps, m, id, c', ha, hwire, hmsg, hs, hf, ho, hnew, hp'⟩
  · rw [hp', hn] at hp
    cases hp
  · rw [hp'] at hp
    split at hp
    · next heq =>
      obtain ⟨rfl, rfl⟩ := heq
      rw [hnew] at hd
      cases hd
    · split at hp
      · next heq =>
        obtain ⟨rfl, rfl⟩ := heq
        cases hp
        rw [Side.other_other]
        exact ⟨m, id, hnew⟩
      · rw [hn] at hp
        cases hp

theorem Wired.of_run {ok : System → Act → Prop} (run : Run next ok System.start y) : y.Wired :=
  run.invariant .start fun _ _ _ hr h _ hn => h.step hr (.of_next hn)

end System

end Qtalk.Mux
