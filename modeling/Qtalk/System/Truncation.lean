import Qtalk.System.Cut
import Qtalk.System.Stream

/-!
# What a cut stream carries

Whatever becomes of the transport and the sessions, the messages a channel handles are the first
that the channel it is paired with has sent (`Routed`). It takes applications that keep out of
the way of `Close` and use an accepted channel only after its confirmation, and a decoder that
makes no message of a packet it has not read in full.
-/

namespace Qtalk.Mux
open Qtalk.Codec Qtalk.Lib

/-- What stands in front of the end of a stream. -/
theorem takeWhile_ends {l l' : List Message} (h : l <+: l') (hl : l.any endsStream = true) :
    l'.takeWhile (!endsStream ·) <+: l := by
  induction l generalizing l' with
  | nil => cases hl
  | cons m l ih =>
    obtain ⟨t, rfl⟩ := h
    rw [List.cons_append, List.takeWhile_cons]
    cases hm : endsStream m with
    | true => exact List.nil_prefix
    | false =>
      rw [List.any_cons, hm, Bool.false_or] at hl
      exact (List.prefix_cons_inj m).mpr (ih (List.prefix_append _ _) hl)

theorem sentBy_mono {l l' : List Packet} (h : l <+: l') (c : Nat) :
    Session.sentBy c l <+: Session.sentBy c l' := by
  obtain ⟨t, rfl⟩ := h
  rw [Session.sentBy_append]
  exact List.prefix_append _ _

/-- A message that the channel does not accept ends the loop. -/
theorem Session.Trans.refused {s s' : Session} {m : Message} {out : List Packet} {c : Nat}
    {e : LoopError} (ht : Session.Trans s (.recv (.ok m)) s' out) (hd : s.dest m = some c)
    (hh : (s.heap c).handle c m = .error e) : s'.heap = s.heap ∧ s'.running = false := by
  obtain ⟨hm, hg⟩ := Session.dest_eq_some.mp hd
  cases ht with
  | unknown | refuse => exact ⟨rfl, rfl⟩
  | @handle _ c' _ _ _ _ _ _ hg' hh' =>
    obtain rfl := Option.some.inj (hg'.symm.trans hg)
    rw [hh] at hh'
    cases hh'
  | rejectOpen | handleOpen => cases hm

namespace Cuttable

variable {y y' : Cuttable} {a : Act} {x : Side} {c d : Nat} {out : List Packet}

/-- The applications keep out of the way, and the decoder makes no message of a packet that was
not read in full. -/
def Considerate (y : Cuttable) : Act → Prop
  | .app x a => (y.sess x).TidyClose a ∧ (y.sess x).UsesConfirmed a
  | .decode x cuts => (y.reads x cuts).1.isOk = false
  | _ => True

instance (y : Cuttable) : ∀ a, Decidable (Considerate y a)
  | .app x a => inferInstanceAs (Decidable ((y.sess x).TidyClose a ∧ (y.sess x).UsesConfirmed a))
  | .decode x cuts => inferInstanceAs (Decidable ((y.reads x cuts).1.isOk = false))
  | .break .. | .deliver _ | .fail .. => .isTrue trivial

section Local

variable (run : Run next Considerate start y)

include run

theorem inv (x : Side) : (y.sess x).Inv := .of_run (any_run run x)

variable (hc : c < (y.sess x).fresh)

include hc

theorem spoken : (y.chan x c).Spoken := Session.spoken (any_run run x) c hc

theorem acceptor (hd : (y.chan x c).direction = .inbound) : (y.chan x c).Acceptor :=
  Session.acceptors (any_run run x) c hc hd

theorem opener (hd : (y.chan x c).direction = .outbound) : (y.chan x c).Opener :=
  Session.openers (any_run run x) c hc hd

theorem closesLast : (y.chan x c).ClosesLast :=
  Session.closesLast (session_run (fun _ _ _ h => h.1) (fun _ _ => trivial) run x) c hc

theorem confirmsFirst (hd : (y.chan x c).direction = .inbound) : (y.chan x c).ConfirmsFirst :=
  Session.confirmsFirst (session_run (fun _ _ _ h => h.2) (fun _ _ => trivial) run x) c hc hd

end Local

/-! ## A step at one side -/

/-- The packets of a side that get through whole, as far as it has encoded. -/
def through (y : Cuttable) (x : Side) : List Packet := y.decoded x.other ++ y.wire x

/-- What side `x` encodes gets through whole. -/
def Whole (y : Cuttable) (x : Side) : Prop := y.cut x = false ∧ y.rest x = none

/-- What a step does at one side, and what it encodes there. -/
inductive At (y y' : Cuttable) (a : Act) (x : Side) : List Packet → Prop where
  | still (ha : a ≠ .deliver x) (hs : y'.sess x = y.sess x) : At y y' a x []
  | quiet {b : Session.Act} {out : List Packet} (ha : a ≠ .deliver x)
      (hb : ∀ m, b ≠ .recv (.ok m)) (ht : Session.Trans (y.sess x) b (y'.sess x) out) :
      At y y' a x out
  | recv {p : Packet} {ps : List Packet} (ha : a = .deliver x) (hw : y.wire x.other = p :: ps)
      (ht : Session.Trans (y.sess x) (.recv (.ok p.msg)) (y'.sess x) []) : At y y' a x []

/-- What becomes of the packets a step encodes. -/
inductive Carried (y y' : Cuttable) (x : Side) (out : List Packet) : Prop where
  | whole (ho : y.Whole x) (h : y'.through x = y.through x ++ out)
  | lost (h : y'.through x <+: y.through x) (ho : ¬ y'.Whole x)

/-- The step leaves the direction as it is. -/
theorem Carried.same (h : y'.through x = y.through x) (ho : y'.Whole x → y.Whole x) :
    Carried y y' x [] := by
  by_cases hw : y.Whole x
  · exact .whole hw (by rw [h, List.append_nil])
  · exact .lost (h ▸ List.prefix_refl _) fun hw' => hw (ho hw')

theorem Carried.encode (y : Cuttable) (x : Side) (s : Session) (out : List Packet)
    (failed : Bool) : Carried y (y.encode x s out failed) x out := by
  have hthrough : (y.encode x s out failed).through x = y.through x ++
      if y.shut x = true ∨ (y.rest x).isSome then [] else out := by
    simp [through, Cuttable.encode]
  by_cases hs : y.shut x = true ∨ (y.rest x).isSome
  · rw [if_pos hs, List.append_nil] at hthrough
    refine .lost (hthrough ▸ List.prefix_refl _) fun ho => ?_
    simp only [Whole, Cuttable.encode, Function.update_self, Bool.or_eq_false_iff,
      Option.map_eq_none_iff] at ho
    obtain ⟨⟨hshut, -⟩, hrest⟩ := ho
    simp [hshut, hrest] at hs
  · rw [if_neg hs] at hthrough
    rw [not_or, shut, Bool.or_eq_true, not_or] at hs
    exact .whole ⟨by simpa using hs.1.1, by simpa using hs.2⟩ hthrough

theorem Moves.side (h : Moves y a y') (hok : Considerate y a) (x : Side) :
    ∃ out, At y y' a x out ∧ Carried y y' x out := by
  -- the side that steps, or the other one
  cases h with
  | @app z b s out ha hs ht =>
    have hb : ∀ m, b ≠ .recv (.ok m) := by
      rintro m rfl
      cases ha
    rcases z.eq_or_other x with rfl | rfl
    · exact ⟨out, .quiet nofun hb (by simpa [encode] using ht), .encode _ _ _ _ _⟩
    · refine ⟨[], .still nofun (by simp [encode]), .same ?_ fun ho => ?_⟩
      · simp [through, encode]
      · simpa [Whole, encode] using ho
  | «break» z j n =>
    refine ⟨[], .still nofun rfl, ?_⟩
    rcases z.eq_or_other x with rfl | rfl
    · refine .lost ?_ fun ho => ?_
      · simpa [through] using List.take_prefix _ _
      · simp [Whole] at ho
    · refine .same ?_ fun ho => ?_
      · simp [through]
      · simpa [Whole] using ho
  | @deliver z p ps s hw hs ht =>
    rcases z.eq_or_other x with rfl | rfl
    · refine ⟨[], .recv rfl hw (by simpa using ht), .same ?_ id⟩
      simp [through]
    · refine ⟨[], .still (by simp) (by simp), .same ?_ id⟩
      simp [through, hw]
  | @decode z cuts s hs ht =>
    obtain ⟨e, he⟩ : ∃ e, (y.reads z cuts).1 = .error e := by
      have hok' : (y.reads z cuts).1.isOk = false := hok
      cases hr : (y.reads z cuts).1 with
      | error e => exact ⟨e, rfl⟩
      | ok m => rw [hr] at hok'; cases hok'
    rcases z.eq_or_other x with rfl | rfl
    · refine ⟨[], .quiet nofun (b := .recv (.error e)) (by simp) ?_, .same ?_ fun ho => ?_⟩
      · rw [he] at ht
        simpa using ht
      · simp [through]
      · simpa [Whole] using ho
    · refine ⟨[], .still nofun (by simp), .lost ?_ fun ho => ?_⟩
      · simp [through]
      · simp [Whole] at ho
  | @fail z e s hs ht =>
    rcases z.eq_or_other x with rfl | rfl
    · refine ⟨[], .quiet nofun (b := .recv (.error (.read e))) (by simp) ?_, .same rfl id⟩
      simpa using ht
    · exact ⟨[], .still nofun (by simp), .same rfl id⟩

theorem At.extends (h : At y y' a x out) (hi : (y.sess x).Inv) (hc : c < (y.sess x).fresh) :
    Channel.Extends (y.chan x c) (y'.chan x c) := by
  cases h with
  | still _ hs => rw [System.chan, System.chan, hs]; exact .refl _
  | quiet _ _ ht => exact (hi.changes ht hc).extends
  | recv _ _ ht => exact (hi.changes ht hc).extends

theorem At.sent (h : At y y' a x out) (hi : (y.sess x).Inv) (hc : c < (y.sess x).fresh) :
    (y'.chan x c).sent = (y.chan x c).sent ++ Session.sentBy c out := by
  cases h with
  | still _ hs => rw [System.chan, System.chan, hs, Session.sentBy_nil, List.append_nil]
  | quiet _ _ ht => exact (hi.changes ht hc).sent
  | recv _ _ ht => exact (hi.changes ht hc).sent

theorem At.fresh (h : At y y' a x out) : (y.sess x).fresh ≤ (y'.sess x).fresh := by
  cases h with
  | still _ hs => exact Nat.le_of_eq (by rw [hs])
  | quiet _ _ ht => rcases ht.fresh with hf | ⟨hf, -⟩ <;> omega
  | recv _ _ ht => rcases ht.fresh with hf | ⟨hf, -⟩ <;> omega

/-- A side that is delivered nothing opens new channels only. -/
theorem At.new (h : At y y' a x out) (ha : a ≠ .deliver x) (hc : (y.sess x).fresh ≤ c)
    (hc' : c < (y'.sess x).fresh) : ∃ id, y'.chan x c = Session.outboundChannel id := by
  cases h with
  | still _ hs =>
    rw [hs] at hc'
    exact absurd hc' (Nat.not_lt.mpr hc)
  | quiet _ hb ht =>
    rcases ht.fresh with hf | ⟨hf, ⟨-, id, hn⟩ | ⟨m, id, rfl, -⟩⟩
    · omega
    · obtain rfl : c = (y.sess x).fresh := by omega
      exact ⟨id, hn⟩
    · exact absurd rfl (hb _)
  | recv ha' => exact absurd ha' ha

/-- Nor do its channels handle anything. -/
theorem At.handled (h : At y y' a x out) (ha : a ≠ .deliver x) (hi : (y.sess x).Inv)
    (hc : c < (y.sess x).fresh) : (y'.chan x c).handled = (y.chan x c).handled := by
  cases h with
  | still _ hs => rw [System.chan, System.chan, hs]
  | quiet _ hb ht => exact (hi.changes ht hc).handled hb
  | recv ha' => exact absurd ha' ha

/-- A step that delivers nothing to a side decodes nothing there and pairs no channels. -/
theorem Moves.idle (h : Moves y a y') (ha : ∀ z, a ≠ .deliver z) :
    y'.peer = y.peer ∧ y'.decoded = y.decoded := by
  cases h with
  | deliver => exact absurd rfl (ha _)
  | _ => exact ⟨rfl, rfl⟩

/-- A packet is delivered to a side. -/
structure Delivers (y y' : Cuttable) (x : Side) (p : Packet) (ps : List Packet) : Prop where
  wire : y.wire x.other = p :: ps
  trans : Session.Trans (y.sess x) (.recv (.ok p.msg)) (y'.sess x) []
  other : y'.sess x.other = y.sess x.other
  decoded : y'.decoded x = y.decoded x ++ [p]
  kept : y'.decoded x.other = y.decoded x.other
  moves : System.Moves y.toSystem (.deliver x) y'.toSystem

theorem Moves.delivers (h : Moves y (.deliver x) y') : ∃ p ps, Delivers y y' x p ps := by
  cases h with
  | @deliver _ p ps s hw hs ht hm =>
    exact ⟨p, ps, hw, by simpa using ht, by simp, by simp, by simp, hm⟩

theorem Delivers.running {p : Packet} {ps : List Packet} (h : Delivers y y' x p ps) :
    (y.sess x).running = true :=
  System.running_of_recv h.trans

/-! ## Paired channels -/

/-- What one end of a channel has handled, the other has sent. -/
structure Routed (y : Cuttable) : Prop where
  pairing : y.toSystem.Pairing
  noReject : ∀ x id, .reject id ∉ (y.sess x).ops
  /-- the packets that get through were sent for channels that exist -/
  known : ∀ x, ∀ p ∈ y.through x, ∃ c < (y.sess x).fresh, p.src = some c
  /-- and are the first that were sent, or all -/
  sent : ∀ x, ∀ c < (y.sess x).fresh, Session.sentBy c (y.through x) <+: (y.chan x c).sent ∧
    (y.Whole x → Session.sentBy c (y.through x) = (y.chan x c).sent)
  /-- a channel without a peer was not heard, nor did it hear anything -/
  alone : ∀ x, ∀ c < (y.sess x).fresh, y.peer x c = none →
    (y.chan x c).handled = [] ∧ Session.sentBy c (y.decoded x.other) = []
  /-- a channel has handled what was decoded of its peer, all of it while the session runs -/
  hears : ∀ x c d, y.peer x c = some d →
    (y.chan x c).handled <+: Session.sentBy d (y.decoded x) ∧
      ((y.sess x).running = true → (y.chan x c).handled = Session.sentBy d (y.decoded x))

theorem Routed.start : start.Routed where
  pairing := System.Wired.start.pairing
  noReject := System.Wired.start.noReject
  known := by simp [through, Cuttable.start, System.start]
  sent := by simp [Cuttable.start, System.start, newSession]
  alone := by simp [Cuttable.start, System.start, newSession]
  hears := by simp [Cuttable.start, System.start]

theorem through_other (y : Cuttable) (x : Side) :
    y.through x.other = y.decoded x ++ y.wire x.other := by
  rw [through, Side.other_other]

namespace Routed

section State

variable (h : y.Routed)

include h

theorem unknown (hc : (y.sess x).fresh ≤ c) : Session.sentBy c (y.through x) = [] := by
  refine List.eq_nil_iff_forall_not_mem.mpr fun m hm => ?_
  obtain ⟨c', hc', hs⟩ := h.known x _ (Session.mem_sentBy.mp hm)
  cases hs
  exact absurd hc' (Nat.not_lt.mpr hc)

theorem mem_sent {p : Packet} (hp : p ∈ y.through x) (hs : p.src = some c) :
    c < (y.sess x).fresh ∧ p.msg ∈ (y.chan x c).sent := by
  obtain ⟨c', hc', hs'⟩ := h.known x p hp
  obtain rfl := Option.some.inj (hs'.symm.trans hs)
  exact ⟨hc', (h.sent x c' hc').1.subset (Session.mem_sentBy.mpr (by rwa [← hs]))⟩

theorem back (hp : y.peer x.other c = some d) : y.peer x d = some c := by
  have := h.pairing.symm _ _ _ hp
  rwa [Side.other_other] at this

/-- One end has handled a prefix of what the other has sent. -/
theorem handled (hp : y.peer x c = some d) : (y.chan x c).handled <+: (y.chan x.other d).sent := by
  have hd := (h.pairing.lt x c d hp).2
  refine (h.hears x c d hp).1.trans ((sentBy_mono ?_ d).trans (h.sent x.other d hd).1)
  rw [through_other]
  exact List.prefix_append _ _

variable (run : Run next Considerate Cuttable.start y)

include run

theorem size_ok {p : Packet} (hp : p ∈ y.through x) {m : OpenMessage} (hm : p.msg = .openMsg m) :
    ¬ (m.maxPacketSize < minPacketLength ∨ m.maxPacketSize > maxPacketLength) := by
  obtain ⟨c, -, hs⟩ := h.known x p hp
  obtain ⟨hc, hin⟩ := h.mem_sent hp hs
  rw [hm] at hin
  rw [((spoken run hc).opens m hin).2]
  exact channelMaxPacket_ok

end State

/-! ## The oldest packet -/

section Head

variable (run : Run next Considerate Cuttable.start y) (h : y.Routed) {p : Packet} {ps : List Packet}
  (hw : y.wire x.other = p :: ps)

include hw

theorem head_mem : p ∈ y.through x.other := by
  rw [through_other, hw]
  simp

include h

theorem head_sent (hs : p.src = some c) :
    Session.sentBy c (y.decoded x) ++ [p.msg] <+: (y.chan x.other c).sent := by
  have hc := (h.mem_sent (head_mem hw) hs).1
  have hsent := (h.sent x.other c hc).1
  rw [through_other, hw, Session.sentBy_append, Session.sentBy_cons, if_pos hs] at hsent
  exact List.IsPrefix.trans ⟨Session.sentBy c ps, by simp⟩ hsent

include run

/-- A channel without a peer has sent an `OpenMessage` at most. -/
theorem opens (hs : p.src = some c) (hp : y.peer x.other c = none) :
    (y.chan x.other c).direction = .outbound ∧ ∃ m, p.msg = .openMsg m := by
  obtain ⟨hc, hin⟩ := h.mem_sent (head_mem hw) hs
  have hdir : (y.chan x.other c).direction = .outbound := by
    cases hdir : (y.chan x.other c).direction with
    | outbound => rfl
    | inbound =>
      obtain ⟨d, hd⟩ := h.pairing.accepted _ c hc hdir
      rw [hp] at hd
      cases hd
  refine ⟨hdir, ?_⟩
  have hnil := (h.alone _ c hc hp).1
  rcases (opener run hc hdir).speaks _ hin with ho | hcl | hcl
  · cases hm : p.msg with
    | openMsg m => exact ⟨m, rfl⟩
    | _ => rw [hm] at ho; cases ho
  · rw [hnil] at hcl; cases hcl
  · rw [hnil] at hcl; cases hcl

variable (hr : (y.sess x).running = true)

include hr

theorem not_open (hs : p.src = some c) (hp : y.peer x.other c = some d)
    (hdir : (y.chan x.other c).direction = .outbound) : ¬ p.msg.isOpen = true := by
  intro ho
  have hback := h.back hp
  obtain ⟨hd, hc⟩ := h.pairing.lt x d c hback
  have hin := (h.pairing.inbound_iff hback).mpr hdir
  -- the channel was accepted by another `OpenMessage` of its peer
  obtain ⟨m, rest, hh, -⟩ := (acceptor run hd hin).opened
  rw [(h.hears x d c hback).2 hr] at hh
  have honce := (opener run hc hdir).once
  have hle := (h.head_sent hw hs).sublist.countP_le (p := Message.isOpen)
  rw [hh, List.countP_append, List.countP_cons, List.countP_singleton, if_pos ho] at hle
  simp only [Message.isOpen, if_true] at hle
  omega

/-- The message names the peer of its sender. -/
theorem addressed (hs : p.src = some c) (hp : y.peer x.other c = some d) :
    p.msg.channel = ((y.chan x d).localId, true) := by
  have hback := h.back hp
  obtain ⟨hd, hc⟩ := h.pairing.lt x d c hback
  have hin := (h.mem_sent (head_mem hw) hs).2
  have hsent := h.handled hp
  rw [Side.other_other] at hsent
  cases hdir : (y.chan x.other c).direction with
  | inbound =>
    rw [(acceptor run hc hdir).addressed _ hin,
      ((spoken run hd).opened (acceptor run hc hdir) hsent).2]
  | outbound =>
    have hher := (confirmsFirst run hd ((h.pairing.inbound_iff hback).mpr hdir)).heralded.mono hsent
    exact ((opener run hc hdir).addressed _ ((spoken run hd).confirmedAs hsent) hher _ hin).resolve_left
      (h.not_open run hw hr hs hp hdir)

/-- It finds it. -/
theorem dest (hs : p.src = some c) (hp : y.peer x.other c = some d) :
    (y.sess x).dest p.msg = some d := by
  have hback := h.back hp
  obtain ⟨hd, hc⟩ := h.pairing.lt x d c hback
  have haddr := h.addressed run hw hr hs hp
  have hhead := h.head_sent hw hs
  have hi := inv run x
  refine Session.dest_eq_some.mpr ⟨by rw [haddr], ?_⟩
  rw [haddr, ChanList.getChan_eq hi.short]
  refine (hi.unlisted hr d hd).resolve_right fun hended => ?_
  -- the peer would have sent something after its last message
  have hall : ∀ m ∈ ((y.sess x).heap d).handled, m ∈ Session.sentBy c (y.decoded x) := by
    intro m hm
    rwa [← (h.hears x d c hback).2 hr]
  rw [Channel.ended, Bool.or_eq_true] at hended
  rcases hended with hcl | hf
  · obtain ⟨m, hm, hcl⟩ := List.any_eq_true.mp hcl
    have hsilent := (closesLast run hc).silent.sublist hhead.sublist
    rw [List.pairwise_append] at hsilent
    have := hsilent.2.2 m (hall m hm) p.msg (List.mem_singleton_self _) hcl
    rw [haddr] at this
    cases this
  · obtain ⟨m, hm, hf⟩ := List.any_eq_true.mp hf
    exact any_false (spoken run hc).noFailure m
      (hhead.subset (List.mem_append_left _ (hall m hm))) hf

/-- Where a message finds a channel, the peer of the channel sent it. -/
theorem own (hdest : (y.sess x).dest p.msg = some d) : ∃ c, p.src = some c ∧ y.peer x d = some c := by
  obtain ⟨c, hc, hs⟩ := h.known _ p (head_mem hw)
  cases hp : y.peer x.other c with
  | none =>
    obtain ⟨-, m, hm⟩ := h.opens run hw hs hp
    rw [hm] at hdest
    cases hdest
  | some d' =>
    have heq := h.dest run hw hr hs hp
    obtain rfl := Option.some.inj (heq.symm.trans hdest)
    exact ⟨c, hs, h.back hp⟩

theorem asks : System.Pairing.Asks y.toSystem (.deliver x) := by
  intro z q qs m c ha hw' hm hs
  cases ha
  rw [hw] at hw'
  cases hw'
  have hc := (h.mem_sent (head_mem hw) hs).1
  cases hp : y.peer x.other c with
  | none => exact ⟨hc, (h.opens run hw hs hp).1, rfl⟩
  | some d =>
    have haddr := h.addressed run hw hr hs hp
    rw [hm] at haddr
    cases congrArg Prod.snd haddr

/-- What a delivery gives a channel with a peer. -/
theorem hears_head {s : Session} (ht : Session.Trans (y.sess x) (.recv (.ok p.msg)) s [])
    (hp : y.peer x d = some c) :
    (s.heap d).handled <+: Session.sentBy c (y.decoded x ++ [p]) ∧
      (s.running = true → (s.heap d).handled = Session.sentBy c (y.decoded x ++ [p])) := by
  have hd := (h.pairing.lt x d c hp).1
  have hold : ((y.sess x).heap d).handled = Session.sentBy c (y.decoded x) := (h.hears x d c hp).2 hr
  rw [Session.sentBy_append, Session.sentBy_cons, Session.sentBy_nil, ← hold]
  by_cases hs : p.src = some c
  · rw [if_pos hs]
    have hdest := h.dest run hw hr hs (h.pairing.symm _ _ _ hp)
    cases hh : ((y.sess x).heap d).handle d p.msg with
    | ok r =>
      rw [(ht.handled hdest hh).1]
      exact ⟨List.prefix_refl _, fun _ => rfl⟩
    | error e =>
      obtain ⟨hheap, hrun⟩ := ht.refused hdest hh
      rw [hheap, hrun]
      exact ⟨List.prefix_append _ _, nofun⟩
  · rw [if_neg hs, List.append_nil, ht.not_handled hd]
    · exact ⟨List.prefix_refl _, fun _ => rfl⟩
    · intro hdest
      obtain ⟨c', hs', hp'⟩ := h.own run hw hr hdest
      obtain rfl := Option.some.inj (hp'.symm.trans hp)
      exact hs hs'

/-- A channel without a peer gets nothing. -/
theorem unheard_head {s : Session} (ht : Session.Trans (y.sess x) (.recv (.ok p.msg)) s [])
    (hc : c < (y.sess x).fresh) (hp : y.peer x c = none) : (s.heap c).handled = [] := by
  rw [ht.not_handled hc]
  · exact (h.alone x c hc hp).1
  · intro hdest
    obtain ⟨c', -, hp'⟩ := h.own run hw hr hdest
    rw [hp] at hp'
    cases hp'

end Head

/-! ## Every step -/

section Step

variable (run : Run next Considerate Cuttable.start y) (h : y.Routed) (hm : Moves y a y')
  (hok : Considerate y a)

include h run hm hok

/-- What the step does to the pairing of channels. -/
theorem pairs : ∃ b, System.Pairs y.toSystem y'.toSystem b ∧ System.Pairing.Asks y.toSystem b := by
  by_cases ha : ∀ z, a ≠ .deliver z
  · refine ⟨.app .left .register, .same (hm.idle ha).1 (fun z c hc hc' => ?_) nofun, nofun⟩
    obtain ⟨out, hat, -⟩ := hm.side hok z
    exact hat.new (ha z) hc hc'
  · push Not at ha
    obtain ⟨z, rfl⟩ := ha
    cases hm with
    | deliver hw hs ht hm =>
      refine ⟨_, hm.pairs fun x p hp => ?_, h.asks run hw (System.running_of_recv ht)⟩
      obtain ⟨c, -, hs⟩ := h.known x p (List.mem_append_right _ hp)
      rw [hs]
      nofun

theorem pairing_step : y'.toSystem.Pairing := by
  obtain ⟨b, hpairs, hasks⟩ := h.pairs run hm hok
  refine h.pairing.step hpairs hasks fun x => ?_
  obtain ⟨out, hat, -⟩ := hm.side hok x
  exact ⟨hat.fresh, fun _ hc => hat.extends (inv run x) hc⟩

theorem noReject_step (x : Side) (id : UInt32) : .reject id ∉ (y'.sess x).ops := by
  intro hid
  obtain ⟨out, hat, -⟩ := hm.side hok x
  cases hat with
  | still _ hs => exact h.noReject x id (hs ▸ hid)
  | quiet _ hb ht =>
    rcases ht.rejects hid with hid | ⟨m, rfl, -⟩
    · exact h.noReject x id hid
    · exact hb _ rfl
  | @recv p ps ha hw ht =>
    rcases ht.rejects hid with hid | ⟨m, hmsg, hbad⟩
    · exact h.noReject x id hid
    · exact h.size_ok run (head_mem hw) (by simpa using hmsg) hbad

theorem known_step (x : Side) {p : Packet} (hp : p ∈ y'.through x) :
    ∃ c < (y.sess x).fresh, p.src = some c := by
  obtain ⟨out, hat, hcarried⟩ := hm.side hok x
  cases hcarried with
  | lost hthrough => exact h.known x p (hthrough.subset hp)
  | whole _ hthrough =>
    rw [hthrough, List.mem_append] at hp
    rcases hp with hp | hp
    · exact h.known x p hp
    · cases hat with
      | still | recv => cases hp
      | quiet _ _ ht =>
        obtain ⟨c, hc, hs, -⟩ := (inv run x).out_src ht (h.noReject x) hp
        exact ⟨c, hc, hs⟩

theorem sent_step (x : Side) (hc : c < (y'.sess x).fresh) :
    Session.sentBy c (y'.through x) <+: (y'.chan x c).sent ∧
      (y'.Whole x → Session.sentBy c (y'.through x) = (y'.chan x c).sent) := by
  obtain ⟨out, hat, hcarried⟩ := hm.side hok x
  rcases Nat.lt_or_ge c (y.sess x).fresh with hlt | hge
  · have hsent := hat.sent (inv run x) hlt
    obtain ⟨hpre, hall⟩ := h.sent x c hlt
    cases hcarried with
    | whole ho hthrough =>
      rw [hthrough, Session.sentBy_append, hall ho, hsent]
      exact ⟨List.prefix_refl _, fun _ => rfl⟩
    | lost hthrough ho =>
      refine ⟨(sentBy_mono hthrough c).trans (hpre.trans ?_), fun hw => absurd hw ho⟩
      rw [hsent]
      exact List.prefix_append _ _
  · -- the channel is new
    have hnil : Session.sentBy c (y'.through x) = [] := by
      refine List.eq_nil_iff_forall_not_mem.mpr fun m hin => ?_
      obtain ⟨c', hc', hs⟩ := h.known_step run hm hok x (Session.mem_sentBy.mp hin)
      cases hs
      exact absurd hc' (Nat.not_lt.mpr hge)
    have hnew : (y'.chan x c).sent = [] := by
      cases hat with
      | still _ hs => exact absurd (hs ▸ hc) (Nat.not_lt.mpr hge)
      | quiet _ _ ht | recv _ _ ht =>
        rcases ht.fresh with hf | ⟨hf, ⟨-, id, hn⟩ | ⟨m, id, -, hn⟩⟩
        · omega
        · obtain rfl : c = (y.sess x).fresh := by omega
          rw [System.chan, hn]
          rfl
        · obtain rfl : c = (y.sess x).fresh := by omega
          rw [System.chan, hn]
          rfl
    rw [hnil, hnew]
    exact ⟨List.prefix_refl _, fun _ => rfl⟩

/-- Without a delivery nothing is handled. -/
theorem idle_step (ha : ∀ z, a ≠ .deliver z) :
    (∀ x, ∀ c < (y'.sess x).fresh, y'.peer x c = none →
      (y'.chan x c).handled = [] ∧ Session.sentBy c (y'.decoded x.other) = []) ∧
    ∀ x c d, y'.peer x c = some d → (y'.chan x c).handled <+: Session.sentBy d (y'.decoded x) ∧
      ((y'.sess x).running = true → (y'.chan x c).handled = Session.sentBy d (y'.decoded x)) := by
  obtain ⟨hpeer, hdec⟩ := hm.idle ha
  rw [hpeer, hdec]
  refine ⟨fun x c hc hp => ?_, fun x c d hp => ?_⟩ <;> obtain ⟨out, hat, -⟩ := hm.side hok x
  · rcases Nat.lt_or_ge c (y.sess x).fresh with hlt | hge
    · rw [hat.handled (ha x) (inv run x) hlt]
      exact h.alone x c hlt hp
    · obtain ⟨id, hid⟩ := hat.new (ha x) hge hc
      have hnone := h.unknown hge
      rw [through, Session.sentBy_append, List.append_eq_nil_iff] at hnone
      exact ⟨by rw [hid]; rfl, hnone.1⟩
  · have hlt := (h.pairing.lt x c d hp).1
    rw [hat.handled (ha x) (inv run x) hlt]
    obtain ⟨hpre, hall⟩ := h.hears x c d hp
    refine ⟨hpre, fun hr => hall ?_⟩
    cases hat with
    | still _ hs => rwa [← hs]
    | quiet _ _ ht => exact ((inv run x).work (Session.plans (any_run run x)) ht).running hr
    | recv ha' => exact absurd ha' (ha x)

end Step

section Deliver

variable (run : Run next Considerate Cuttable.start y) (h : y.Routed) {p : Packet}
  {ps : List Packet} (hd : Delivers y y' x p ps)

include h hd

theorem pairs_deliver : System.Pairs y.toSystem y'.toSystem (.deliver x) := by
  refine hd.moves.pairs fun z p hp => ?_
  obtain ⟨c, -, hs⟩ := h.known z p (List.mem_append_right _ hp)
  rw [hs]
  nofun

include run

theorem keep (z : Side) (hp : y'.peer z c = none) : y.peer z c = none := by
  cases hold : y.peer z c with
  | none => rfl
  | some d =>
    have := h.pairing.keep (h.pairs_deliver hd) (h.asks run hd.wire hd.running) hold
    rw [hp] at this
    cases this

/-- A channel that stays without a peer is not the one an `OpenMessage` came from. -/
theorem untaken (hp : y'.peer x.other c = none) : ¬ p.src = some c := by
  intro hs
  obtain ⟨-, m, hm⟩ := h.opens run hd.wire hs (h.keep run hd _ hp)
  rcases h.pairs_deliver hd with ⟨-, -, hbad⟩ | ⟨ha, hw, -, hs', -, -, -, hp'⟩
  · exact h.size_ok run (head_mem hd.wire) hm (hbad x p ps m rfl hd.wire hm)
  · cases ha
    rw [hd.wire] at hw
    cases hw
    rw [hs] at hs'
    cases hs'
    rw [hp', if_neg (by simp), if_pos ⟨rfl, rfl⟩] at hp
    cases hp

/-- The channels that stay without a peer. -/
theorem alone_deliver (z : Side) (hc : c < (y'.sess z).fresh) (hp : y'.peer z c = none) :
    (y'.chan z c).handled = [] ∧ Session.sentBy c (y'.decoded z.other) = [] := by
  have hnone := h.keep run hd z hp
  rcases x.eq_or_other z with rfl | rfl
  · rw [hd.kept]
    rcases Nat.lt_or_ge c (y.sess z).fresh with hlt | hge
    · exact ⟨h.unheard_head run hd.wire hd.running hd.trans hlt hnone, (h.alone z c hlt hnone).2⟩
    · have hnil := h.unknown hge
      rw [through, Session.sentBy_append, List.append_eq_nil_iff] at hnil
      refine ⟨?_, hnil.1⟩
      rcases h.pairs_deliver hd with ⟨-, hn, -⟩ | ⟨ha, -, -, -, hf, -, -, hp'⟩
      · obtain ⟨id, hid⟩ := hn z c hge hc
        rw [hid]
        rfl
      · cases ha
        obtain rfl : c = (y.sess z).fresh := by omega
        rw [hp', if_pos ⟨rfl, rfl⟩] at hp
        cases hp
  · rw [hd.other] at hc
    obtain ⟨hhandled, hnil⟩ := h.alone x.other c hc hnone
    rw [Side.other_other] at hnil ⊢
    rw [System.chan, hd.other, hd.decoded, Session.sentBy_append, hnil, Session.sentBy_cons,
      if_neg (h.untaken run hd hp)]
    exact ⟨hhandled, rfl⟩

/-- The channels with a peer. -/
theorem hears_deliver (z : Side) (hp : y'.peer z c = some d) :
    (y'.chan z c).handled <+: Session.sentBy d (y'.decoded z) ∧
      ((y'.sess z).running = true → (y'.chan z c).handled = Session.sentBy d (y'.decoded z)) := by
  have old : y.peer z c = some d → (y'.chan z c).handled <+: Session.sentBy d (y'.decoded z) ∧
      ((y'.sess z).running = true → (y'.chan z c).handled = Session.sentBy d (y'.decoded z)) := by
    intro hp
    rcases x.eq_or_other z with rfl | rfl
    · rw [hd.decoded]
      exact h.hears_head run hd.wire hd.running hd.trans hp
    · rw [System.chan, hd.other, hd.kept]
      exact h.hears x.other c d hp
  rcases h.pairs_deliver hd with ⟨hpeer, -, -⟩ | ⟨ha, hw, hmsg, hs, hf, ho, hn, hp'⟩
  · exact old (by rw [← hpeer, hp])
  · cases ha
    rw [hd.wire] at hw
    cases hw
    obtain ⟨hc₀, -, hnone⟩ := h.asks run hd.wire hd.running _ _ _ _ _ rfl hd.wire hmsg hs
    obtain ⟨hhandled, hnil⟩ := h.alone _ _ hc₀ hnone
    rw [Side.other_other] at hnil
    rw [hp'] at hp
    split at hp
    · -- the channel was created for the packet
      next heq =>
      obtain ⟨rfl, rfl⟩ := heq
      cases hp
      rw [hn, hd.decoded, Session.sentBy_append, hnil, Session.sentBy_cons, if_pos hs, hmsg]
      exact ⟨List.prefix_refl _, fun _ => rfl⟩
    · split at hp
      · -- or has sent it
        next heq =>
        obtain ⟨rfl, rfl⟩ := heq
        cases hp
        have hnew := h.unknown (Nat.le_refl (y.sess x).fresh)
        rw [through, Session.sentBy_append, List.append_eq_nil_iff] at hnew
        rw [System.chan, hd.other, hd.kept, hnew.1]
        rw [System.chan] at hhandled
        rw [hhandled]
        exact ⟨List.prefix_refl _, fun _ => rfl⟩
      · exact old hp

end Deliver

theorem step (run : Run next Considerate Cuttable.start y) (h : y.Routed) (hm : Moves y a y')
    (hok : Considerate y a) : y'.Routed := by
  refine ⟨h.pairing_step run hm hok, h.noReject_step run hm hok, fun x p hp => ?_,
    fun x c hc => h.sent_step run hm hok x hc, fun x c hc hp => ?_, fun x c d hp => ?_⟩
  · obtain ⟨c, hc, hs⟩ := h.known_step run hm hok x hp
    obtain ⟨out, hat, -⟩ := hm.side hok x
    exact ⟨c, Nat.lt_of_lt_of_le hc hat.fresh, hs⟩
  all_goals by_cases ha : ∀ z, a ≠ .deliver z
  · exact (h.idle_step run hm hok ha).1 x c hc hp
  · push Not at ha
    obtain ⟨z, rfl⟩ := ha
    obtain ⟨p, ps, hd⟩ := hm.delivers
    exact h.alone_deliver run hd x hc hp
  · exact (h.idle_step run hm hok ha).2 x c d hp
  · push Not at ha
    obtain ⟨z, rfl⟩ := ha
    obtain ⟨p, ps, hd⟩ := hm.delivers
    exact h.hears_deliver run hd x hp

theorem of_run (run : Run next Considerate Cuttable.start y) : y.Routed :=
  run.invariant .start fun _ _ _ hr h hok hn => h.step hr (.of_next hn) hok

end Routed

/-! ## What has been read -/

/-- What the other side has sent for a channel. -/
def sentTo (y : Cuttable) (x : Side) (c : Nat) : List Message :=
  match y.peer x c with
  | none => []
  | some d => (y.chan x.other d).sent

/-- How much of it has been read. -/
structure ReadsPrefix (y : Cuttable) (x : Side) (c : Nat) : Prop where
  /-- always a part -/
  part : (y.chan x c).got <+: dataOf (y.sentTo x c)
  /-- at the end of the stream all of it, if the other side has ended the stream -/
  whole : ∀ n, (y.chan x c).pending.Read n = .eof → (y.chan x c).handled.any endsStream = true →
    dataOf ((y.sentTo x c).takeWhile (!endsStream ·)) <+: (y.chan x c).got

theorem handled_sentTo (run : Run next Considerate start y) (hc : c < (y.sess x).fresh) :
    (y.chan x c).handled <+: y.sentTo x c := by
  have h := Routed.of_run run
  rw [sentTo]
  cases hp : y.peer x c with
  | none => exact (h.alone x c hc hp).1 ▸ List.prefix_refl _
  | some d => exact h.handled hp

theorem ReadsPrefix.of_run (run : Run next Considerate start y) (hc : c < (y.sess x).fresh) :
    y.ReadsPrefix x c := by
  have hsent := handled_sentTo run hc
  have hread : dataOf (y.chan x c).handled = (y.chan x c).got ++ (y.chan x c).pending.content :=
    (Session.accounts (any_run run x) c hc).streamed
  refine ⟨List.IsPrefix.trans ?_ (dataOf_mono hsent), fun n hn hend => ?_⟩
  · rw [hread]
    exact List.prefix_append _ _
  · rw [(ReadsToEnd.of_run run hc).all n hn]
    exact dataOf_mono (takeWhile_ends hsent hend)

/-- A reader sees the end of its stream when the other side has ended it or the session has
ended. In a considerate run it has then read all, or the first part, of what it was sent. -/
theorem reads_to_end (run : Run next anyStep start y) (hc : c < (y.sess x).fresh) :
    y.ReadsToEnd x c ∧ (Run next Considerate start y → y.ReadsPrefix x c) :=
  ⟨.of_run run hc, fun run' => .of_run run' hc⟩

/-- The left side opens a channel and writes three bytes and one, in two packets. -/
def written : List Act :=
  [.app .left .register, .app .left (.call 0 (.sendOpen true)), .deliver .right,
    .app .right (.loop true), .app .right (.loop true), .app .right .accept, .deliver .left,
    .app .left (.loop true), .app .left (.call 0 .opened), .app .left (.call 0 (.write [1, 2, 3])),
    .app .left (.call 0 (.reserve 0)), .app .left (.call 0 (.sendData 0 true)),
    .app .left (.call 0 (.write [4])), .app .left (.call 0 (.reserve 1)),
    .app .left (.call 0 (.sendData 1 true))]

/-- The transport breaks inside the data of the first packet, and the decoder makes up the rest. -/
example : (exec next anyStep start (written ++ [.break .left 0 11, .decode .right fun _ => 8,
    .app .right (.call 0 (.read 9))])).map (fun y => (y.chan .right 0).got) = some [1, 2, 0] := by
  decide +kernel

/-- The stream is ended, then the transport breaks. -/
theorem reads_to_end_run : ∃ y : Cuttable, y.ReadsToEnd .right 0 ∧ y.ReadsPrefix .right 0 ∧
    (y.chan .right 0).pending.Read 1 = .eof ∧ (y.chan .right 0).got = [1, 2, 3, 4] ∧
    y.sentTo .right 0 = [.openMsg ⟨0, 2097152, 32768⟩, .data ⟨0, 3, [1, 2, 3]⟩, .data ⟨0, 1, [4]⟩,
      .eof ⟨0⟩] ∧ (y.sess .right).Finished := by
  obtain ⟨y, run, hy⟩ := Run.of_exec next Considerate start
    (written ++ [.app .left (.call 0 .closeWrite), .app .left (.call 0 .sendEOF), .deliver .right,
      .deliver .right, .deliver .right, .break .left 0 0, .decode .right fun _ => 1] ++
      List.replicate 8 (.app .right (.loop false)) ++ [.app .right (.call 0 (.read 9))])
    (fun y => decide (0 < (y.sess .right).fresh ∧ (y.sess .right).Finished ∧
      ¬ (y.sess .right).Listed 0 ∧ (y.chan .right 0).handled.any Message.isFailure = false ∧
      (y.chan .right 0).pending.content = [] ∧ (y.chan .right 0).got = [1, 2, 3, 4] ∧
      y.sentTo .right 0 = [.openMsg ⟨0, 2097152, 32768⟩, .data ⟨0, 3, [1, 2, 3]⟩,
        .data ⟨0, 1, [4]⟩, .eof ⟨0⟩]))
    (by decide +kernel)
  simp only [decide_eq_true_eq] at hy
  obtain ⟨hc, hfin, hl, hf, hcont, hgot, hsent⟩ := hy
  obtain ⟨hend, hpart⟩ := reads_to_end run.any hc
  have hread := hend.dropped hfin hl hf 1 Nat.one_pos
  rw [if_pos hcont] at hread
  exact ⟨y, hend, hpart run, hread, hgot, hsent, hfin⟩

/-- The transport breaks inside the second of the packets: the reader gets the bytes of the first, and
then the end of the stream, which nobody has ended. -/
theorem cut_reads_as_end : ¬ ∀ y x c n, Run next anyStep start y → c < (y.sess x).fresh →
    (y.chan x c).pending.Read n = .eof → (y.chan x c).handled.any endsStream = true := by
  intro h
  obtain ⟨y, run, hy⟩ := Run.of_exec next Considerate start
    (written ++ [.break .left 1 1, .deliver .right, .decode .right fun _ => 1] ++
      List.replicate 8 (.app .right (.loop false)) ++ [.app .right (.call 0 (.read 9))])
    (fun y => decide (0 < (y.sess .right).fresh ∧ (y.chan .right 0).pending.content = [] ∧
      (y.chan .right 0).pending.closed = true ∧ (y.chan .right 0).got = [1, 2, 3] ∧
      (y.chan .right 0).handled.any endsStream = false))
    (by decide +kernel)
  simp only [decide_eq_true_eq] at hy
  obtain ⟨hc, hcont, hclosed, -, hend⟩ := hy
  have hread : (y.chan .right 0).pending.Read 1 = .eof := by
    rw [Buffer.Read_empty Nat.one_pos hcont, if_pos hclosed]
  rw [h y .right 0 1 run.any hc hread] at hend
  cases hend

end Cuttable

end Qtalk.Mux
