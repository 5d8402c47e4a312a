import Qtalk.System.Wired

/-!
# The two ends of a channel

A pair of channels is connected by two queues (`Link`): what one has sent, the other has
handled, up to what is in flight. `Fifo.step` says what keeps it so: each end handles
messages of the other only, and takes the next one when it comes.
-/

namespace Qtalk.Mux
open Qtalk.Codec Qtalk.Lib

namespace System

variable {y y' : System} {a : Act} {x z : Side} {c d : Nat}

/-- What channel `c` of side `x` has sent, `d` has handled, or it is in flight. -/
def Link (y : System) (x : Side) (c d : Nat) : Prop :=
  (y.chan x.other d).handled ++ y.flow x c = (y.chan x c).sent

structure Joined (y : System) (x : Side) (c d : Nat) : Prop where
  peer : y.peer x c = some d
  there : Link y x c d
  back : Link y x.other d c

theorem Joined.symm (h : Joined y x c d) (hw : y.Wired) : Joined y x.other d c :=
  ⟨hw.symm x c d h.peer, h.back, by rw [Side.other_other]; exact h.there⟩

theorem Joined.handled_peer (h : Joined y x c d) : (y.chan x.other d).handled <+: (y.chan x c).sent :=
  ⟨_, h.there⟩

theorem Joined.handled (h : Joined y x c d) : (y.chan x c).handled <+: (y.chan x.other d).sent := by
  have := h.back
  rw [Link, Side.other_other] at this
  exact ⟨_, this⟩

/-- A channel that has no peer yet. -/
structure Alone (y : System) (x : Side) (c : Nat) : Prop where
  handled : (y.chan x c).handled = []
  flow : y.flow x c = (y.chan x c).sent

/-- The state of a channel that side `x` opened. -/
def Fifo (y : System) (x : Side) (c : Nat) : Prop :=
  match y.peer x c with
  | none => Alone y x c
  | some d => Joined y x c d

theorem Fifo.joined (h : Fifo y x c) (hp : y.peer x c = some d) : Joined y x c d := by
  rw [Fifo, hp] at h
  exact h

theorem Fifo.alone (h : Fifo y x c) (hp : y.peer x c = none) : Alone y x c := by
  rw [Fifo, hp] at h
  exact h

/-- Where the step delivers a message to channel `c` of side `x`, its peer sent it. -/
def Own (y : System) (x : Side) (c : Nat) : Act → Prop
  | .app _ _ => True
  | .deliver z => z = x → ∀ p ∈ (y.wire x.other).head?, (y.sess x).dest p.msg = some c →
    p.src = y.peer x c

instance (y : System) (x : Side) (c : Nat) (a : Act) : Decidable (Own y x c a) := by
  unfold Own; split <;> infer_instance

/-- The next message of channel `c` goes to `d`, which takes it. -/
def Carries (y : System) (x : Side) (c d : Nat) : Prop :=
  (y.sess x.other).running = true → ∀ m ∈ (y.flow x c).head?,
    (y.sess x.other).dest m = some d ∧ ∃ r, (y.chan x.other d).handle d m = .ok r

theorem At.handled {out : List Packet} (h : At y y' a z out) (hi : (y.sess z).Inv)
    (hc : c < (y.sess z).fresh) (ha : a ≠ .deliver z) :
    (y'.chan z c).handled = (y.chan z c).handled := by
  cases h with
  | still _ hs => rw [chan, chan, hs]
  | app ha' hr ht =>
    refine (hi.changes ht hc).handled fun r hb => ?_
    subst hb
    cases hr
  | recv ha' => exact absurd ha' ha

theorem running_of_recv {s s' : Session} {r : Except DecodeError Message} {out : List Packet}
    (ht : Session.Trans s (.recv r) s' out) : s.running = true := by
  cases ht <;> assumption

/-- A channel without a peer has sent an `OpenMessage` at most. -/
theorem Alone.isOpen {ok : System → Act → Prop} (run : Run next ok System.start y)
    (h : Alone y x c) (hc : c < (y.sess x).fresh)
    (hd : (y.chan x c).direction = .outbound) {m : Message} (hin : m ∈ y.flow x c) :
    ∃ m', m = .openMsg m' := by
  rw [h.flow] at hin
  have hnil := h.handled
  rcases (opener run hc hd).speaks m hin with ho | hs | hs
  · cases m with
    | openMsg m => exact ⟨m, rfl⟩
    | _ => cases ho
  · rw [hnil] at hs; cases hs
  · rw [hnil] at hs; cases hs

section Step

variable {ok : System → Act → Prop} (run : Run next ok System.start y) (hw : y.Wired)
  (hm : Moves y a y')

include run hw hm

/-- A step hands a channel what it takes off the wire of the peer. -/
theorem handled_eq (hp : y.peer x c = some d) (hown : Own y x.other d a) (hc : Carries y x c d) :
    (y'.chan x.other d).handled =
      (y.chan x.other d).handled ++ Session.sentBy c (y.taken a x) := by
  have hd := (hw.lt x c d hp).2
  have hi := Session.Inv.of_run (any_run run x.other)
  obtain ⟨out, -, hat⟩ := hm.side x.other
  by_cases ha : a = .deliver x.other
  · subst ha
    cases hat with
    | still ha => exact absurd rfl ha
    | app ha => cases ha
    | @recv p ps _ hwire ht =>
      rw [Side.other_other] at hwire
      have htaken : y.taken (.deliver x.other) x = [p] := by simp [taken, hwire]
      rw [htaken, Session.sentBy_cons, Session.sentBy_nil]
      split
      · next hsrc =>
        have hflow : y.flow x c = p.msg :: Session.sentBy c ps := by
          rw [flow, hwire, Session.sentBy_cons, if_pos hsrc]
        obtain ⟨hdest, r, hr⟩ := hc (running_of_recv ht) p.msg (by simp [hflow])
        exact (ht.handled hdest hr).1
      · next hsrc =>
        rw [List.append_nil, chan, chan, ht.not_handled hd]
        intro hdest
        have := hown rfl p (by simp [hwire]) hdest
        rw [hw.symm x c d hp] at this
        exact hsrc this
  · rw [hat.handled hi hd ha]
    have htaken : y.taken a x = [] := by
      cases a with
      | app => rfl
      | deliver z =>
        rw [taken, if_neg]
        rintro rfl
        exact ha (by rw [Side.other_other])
    rw [htaken, Session.sentBy_nil, List.append_nil]

theorem Link.step (hl : Link y x c d) (hp : y.peer x c = some d) (hown : Own y x.other d a)
    (hc : Carries y x c d) : Link y' x c d := by
  obtain ⟨out, hwire, hat⟩ := hm.side x
  have hsent := hat.sent (inv run x) (hw.lt x c d hp).1
  have hflow := congrArg (Session.sentBy c) hwire
  rw [Session.sentBy_append, Session.sentBy_append] at hflow
  rw [Link] at hl ⊢
  calc (y'.chan x.other d).handled ++ y'.flow x c
      = (y.chan x.other d).handled ++ (Session.sentBy c (y.taken a x) ++ y'.flow x c) := by
        rw [handled_eq run hw hm hp hown hc, List.append_assoc]
    _ = (y.chan x.other d).handled ++ y.flow x c ++ Session.sentBy c out := by
        rw [flow, ← hflow, List.append_assoc]
        rfl
    _ = (y'.chan x c).sent := by rw [hl, hsent]

theorem Joined.step (hj : Joined y x c d) (hown : Own y x c a) (hown' : Own y x.other d a) (hc : Carries y x c d)
    (hc' : Carries y x.other d c) : Joined y' x c d :=
  ⟨hw.peer_keep run hm hj.peer, hj.there.step run hw hm hj.peer hown' hc,
    hj.back.step run hw hm (hw.symm x c d hj.peer) (by rwa [Side.other_other]) hc'⟩

/-- A channel without a peer handles nothing. -/
theorem Alone.handled_step (h : Alone y x c) (hp : y.peer x c = none) (hc : c < (y.sess x).fresh)
    (hown : Own y x c a) : (y'.chan x c).handled = [] := by
  obtain ⟨out, -, hat⟩ := hm.side x
  by_cases ha : a = .deliver x
  · subst ha
    cases hat with
    | still ha => exact absurd rfl ha
    | app ha => cases ha
    | @recv p ps _ hwire ht =>
      have hin : p ∈ y.wire x.other := by rw [hwire]; exact List.mem_cons_self
      rw [chan, ht.not_handled hc]
      · exact h.handled
      · intro hdest
        have := hown rfl p (by simp [hwire]) hdest
        exact hw.src_ne_none x.other hin (this.trans hp)
  · rw [hat.handled (inv run x) hc ha]
    exact h.handled

/-- It stays alone while nothing of it is taken off the wire. -/
theorem Alone.keep (h : Alone y x c) (hp : y.peer x c = none) (hc : c < (y.sess x).fresh)
    (hown : Own y x c a) (ht : Session.sentBy c (y.taken a x) = []) : Alone y' x c := by
  obtain ⟨out, hwire, hat⟩ := hm.side x
  have hflow := congrArg (Session.sentBy c) hwire
  rw [Session.sentBy_append, Session.sentBy_append, ht, List.nil_append] at hflow
  refine ⟨h.handled_step run hw hm hp hc hown, ?_⟩
  rw [hat.sent (inv run x) hc, ← h.flow]
  exact hflow.symm

/-- The pairing of a channel. -/
theorem Alone.opened {p : Packet} {ps : List Packet} {m : OpenMessage} {id : UInt32}
    (h : Alone y x c) (hp : y.peer x c = none) (hc : c < (y.sess x).fresh) (hown : Own y x c a)
    (hwire : y.wire x = p :: ps) (ha : a = .deliver x.other) (hs : p.src = some c)
    (hmsg : p.msg = .openMsg m) (hp' : y'.peer x c = some (y.sess x.other).fresh)
    (hn : y'.chan x.other (y.sess x.other).fresh = Session.inboundChannel m id) :
    Joined y' x c (y.sess x.other).fresh := by
  obtain ⟨hflow, hsent⟩ := hm.delivers run hwire ha hs hc
  refine ⟨hp', ?_, ?_⟩
  · rw [Link, hn, hsent, ← h.flow, hflow, hmsg]
    rfl
  · rw [Link, Side.other_other, h.handled_step run hw hm hp hc hown, hn,
      hw.flow_new run hm (Nat.le_refl _)]
    rfl

/-- What keeps a channel and its peer connected. -/
theorem Fifo.step (hc : c < (y'.sess x).fresh) (hd : (y'.chan x c).direction = .outbound)
    (h : c < (y.sess x).fresh → Fifo y x c) (hown : Own y x c a)
    (hpeer : ∀ d, y.peer x c = some d →
      Own y x.other d a ∧ Carries y x c d ∧ Carries y x.other d c) : Fifo y' x c := by
  rcases Nat.lt_or_ge c (y.sess x).fresh with hlt | hge
  · have hdir : (y.chan x c).direction = .outbound := by
      obtain ⟨out, -, hat⟩ := hm.side x
      rw [← (hat.extends (inv run x) hlt).direction, hd]
    cases hp : y.peer x c with
    | some d =>
      obtain ⟨hown', hc, hc'⟩ := hpeer d hp
      have hj := ((h hlt).joined hp).step run hw hm hown hown' hc hc'
      rw [Fifo, hj.peer]
      exact hj
    | none =>
      have hal := (h hlt).alone hp
      have keep : y'.peer x c = none → Fifo y' x c := by
        intro hnone
        rw [Fifo, hnone]
        refine hal.keep run hw hm hp hlt hown (hw.untaken run hm hnone fun p ps hwire hs => ?_)
        apply hal.isOpen run hlt hdir
        rw [flow, hwire, Session.sentBy_cons, if_pos hs]
        exact List.mem_cons_self
      rcases hm.pairs fun x p => hw.src_ne_none x with
        ⟨hp', -, -⟩ | @⟨z, p, ps, m, id, c', ha, hwire, hmsg, hs, hf, ho, hn, hp'⟩
      · apply keep
        rw [hp', hp]
      · by_cases hthis : x = z.other ∧ c = c'
        · obtain ⟨rfl, rfl⟩ := hthis
          have hnew : y'.peer z.other c = some (y.sess z).fresh := by
            rw [hp', if_neg (by simp), if_pos ⟨rfl, rfl⟩]
          have := hal.opened run hw hm hp hlt hown hwire (by simpa using ha) hs hmsg
            (by simpa using hnew) (by simpa using hn)
          rw [Fifo, hnew]
          simpa using this
        · apply keep
          rw [hp', if_neg, if_neg hthis, hp]
          rintro ⟨rfl, rfl⟩
          exact absurd hlt (Nat.lt_irrefl _)
  · -- the channel is new
    obtain ⟨hnone, id, hid⟩ := hw.new_outbound hm hge hc hd
    rw [Fifo, hnone]
    exact ⟨by rw [hid]; rfl, by rw [hid, hw.flow_new run hm hge]; rfl⟩

end Step

end System

end Qtalk.Mux
