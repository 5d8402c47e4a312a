import Qtalk.Lib.Runs
import Qtalk.Mux.Moves

/-!
# What the loop has in hand

The operations the session loop still has to do were put there by packets it has handled.
`Session.Inv` keeps that: each operation in `ops` is in order (`OpOk`), they stand in an
order in which none spoils a later one (`Before`), and the channel list holds exactly the
channels not yet ended, each at its own id. It holds in every run, whatever the peer
sends.
-/

namespace Qtalk.Mux
open Qtalk.Codec Qtalk.Lib

namespace Channel

/-- The later state of a channel object. -/
structure Extends (ch ch' : Channel) : Prop where
  localId : ch'.localId = ch.localId
  direction : ch'.direction = ch.direction
  handled : ch.handled <+: ch'.handled
  sent : ch.sent <+: ch'.sent
  sentClose : ch.sentClose = true → ch'.sentClose = true

theorem Extends.refl (ch : Channel) : Extends ch ch :=
  ⟨rfl, rfl, List.prefix_refl _, List.prefix_refl _, id⟩

theorem Extends.trans {a b c : Channel} (h : Extends a b) (h' : Extends b c) : Extends a c :=
  ⟨h'.localId.trans h.localId, h'.direction.trans h.direction, h.handled.trans h'.handled,
    h.sent.trans h'.sent, fun hs => h'.sentClose (h.sentClose hs)⟩

theorem Extends.any_handled {ch ch' : Channel} (h : Extends ch ch') {p : Message → Bool}
    (hp : ch.handled.any p = true) : ch'.handled.any p = true := by
  obtain ⟨m, hm, hpm⟩ := List.any_eq_true.mp hp
  exact List.any_eq_true.mpr ⟨m, h.handled.subset hm, hpm⟩

theorem Extends.any_sent {ch ch' : Channel} (h : Extends ch ch') {p : Message → Bool}
    (hp : ch.sent.any p = true) : ch'.sent.any p = true := by
  obtain ⟨m, hm, hpm⟩ := List.any_eq_true.mp hp
  exact List.any_eq_true.mpr ⟨m, h.sent.subset hm, hpm⟩

theorem Move.extends {ch ch' : Channel} {a : Actor} {ms : List Message} (h : Move ch a ms ch') :
    Extends ch (ch'.sends ms) := by
  cases h
  all_goals
    constructor <;>
      simp_all [sends, writeReturn, CloseWrite, List.prefix_append]

theorem Move.sent_eq {ch ch' : Channel} {a : Actor} {ms : List Message} (h : Move ch a ms ch') :
    ch'.sent = ch.sent := by
  cases h <;> rfl

/-- What the application's steps leave alone. -/
theorem Move.call_frame {ch ch' : Channel} {a : Step} {ms : List Message}
    (h : Move ch (.call a) ms ch') : ch'.msgClosed = ch.msgClosed ∧ ch'.handled = ch.handled ∧
      ms.any Message.isConfirm = false := by
  cases h <;> simp [writeReturn, CloseWrite, dataMessage, Message.isConfirm]

/-- The channel has handled the message that ends it. -/
def ended (ch : Channel) : Bool :=
  ch.handled.any Message.isClose || ch.handled.any Message.isFailure

theorem Extends.ended {ch ch' : Channel} (h : Extends ch ch') (he : ch.ended = true) :
    ch'.ended = true := by
  rw [Channel.ended, Bool.or_eq_true] at he ⊢
  exact he.imp h.any_handled h.any_handled

end Channel

namespace Session

variable {s s' : Session}

@[simp] theorem put_heap (s : Session) (c : Nat) (ch : Channel) :
    (s.put c ch).heap = Function.update s.heap c ch := rfl

@[simp] theorem put_fresh (s : Session) (c : Nat) (ch : Channel) : (s.put c ch).fresh = s.fresh := rfl

@[simp] theorem put_chanList (s : Session) (c : Nat) (ch : Channel) :
    (s.put c ch).chanList = s.chanList := rfl

@[simp] theorem put_incoming (s : Session) (c : Nat) (ch : Channel) :
    (s.put c ch).incoming = s.incoming := rfl

@[simp] theorem put_ops (s : Session) (c : Nat) (ch : Channel) : (s.put c ch).ops = s.ops := rfl

@[simp] theorem put_running (s : Session) (c : Nat) (ch : Channel) :
    (s.put c ch).running = s.running := rfl

@[simp] theorem put_fault (s : Session) (c : Nat) (ch : Channel) : (s.put c ch).fault = s.fault := rfl

@[simp] theorem emit_fst (s : Session) (c : Nat) (r : Channel × List Message) :
    (s.emit c r).1 = s.put c (r.1.sends r.2) := rfl

/-- Which operation may wait behind which. -/
def Before : LoopOp → LoopOp → Prop
  | .publish c, op => op = .confirm c
  | .confirm _, _ | .reject _, _ | .queue _ _, _ | .setErr _, _ => False
  | _, .confirm _ => False
  | .remove _, .remove _ => False
  | .closeMsg _, .remove _ | .closeMsg _, .queue _ _ | .closeMsg _, .dropAll => False
  | .closeMsg c, .closeMsg c' => c ≠ c'
  | .closeWin c, .markClosed c' => c ≠ c'
  | .dropAll, .connClose | .dropAll, .signal | .dropAll, .setErr _ => True
  | .dropAll, _ => False
  | _, _ => True

theorem forall_closeOps {c : Nat} {P : LoopOp → Prop} :
    (∀ op ∈ closeOps c, P op) ↔ P (.eof c) ∧ P (.closeMsg c) ∧ P (.markClosed c) ∧ P (.closeWin c) := by
  simp [closeOps]

theorem closeOps_before (c : Nat) : (closeOps c).Pairwise Before := by
  simp only [closeOps, List.pairwise_cons, List.forall_mem_cons]
  exact ⟨⟨trivial, trivial, trivial, nofun⟩, ⟨trivial, trivial, nofun⟩, ⟨trivial, nofun⟩, nofun, .nil⟩

/-- Two channels can be closed in any order. -/
theorem closeOps_before_of_ne {c c' : Nat} (h : c ≠ c') :
    ∀ op ∈ closeOps c, ∀ op' ∈ closeOps c', Before op op' := by
  simp only [forall_closeOps]
  exact ⟨⟨trivial, trivial, trivial, trivial⟩, ⟨trivial, h, trivial, trivial⟩,
    ⟨trivial, trivial, trivial, trivial⟩, ⟨trivial, trivial, h, trivial⟩⟩

/-- The answer to a `CloseMessage`. -/
theorem reply_before (c : Nat) (id : UInt32) :
    (.reply c :: .remove id :: closeOps c).Pairwise Before := by
  simp only [List.pairwise_cons, List.forall_mem_cons, forall_closeOps]
  exact ⟨⟨trivial, trivial, trivial, trivial, trivial⟩, ⟨trivial, trivial, trivial, trivial⟩,
    closeOps_before c⟩

theorem exitOps_before (e : LoopError) : (exitOps e).Pairwise Before := by
  simp only [exitOps, List.pairwise_cons, List.forall_mem_cons]
  exact ⟨⟨trivial, trivial, trivial, nofun⟩, ⟨trivial, trivial, nofun⟩, ⟨trivial, nofun⟩, nofun, .nil⟩

/-- What an operation in hand rests on. -/
def OpOk (s : Session) : LoopOp → Prop
  | .publish c => c < s.fresh ∧ (s.heap c).direction = .inbound
  | .confirm c =>
    c < s.fresh ∧ (s.heap c).direction = .inbound ∧
      (s.heap c).sent.any Message.isConfirm = false
  | .reject _ => True
  | .queue c m => c < s.fresh ∧ m ∈ (s.heap c).handled ∧ (s.heap c).msgClosed = false
  | .reply c => c < s.fresh ∧ (s.heap c).handled.any Message.isClose = true
  | .remove id => ∃ c, ChanList.slot s.chanList id.toNat = some c ∧ (s.heap c).ended = true
  | .eof c | .markClosed c => c < s.fresh
  | .closeMsg c => c < s.fresh ∧ (s.heap c).msgClosed = false
  | .closeWin c => c < s.fresh ∧ ((s.heap c).sentClose = true ∨ .markClosed c ∈ s.ops)
  | .dropAll | .connClose | .signal | .setErr _ => s.running = false

/-- The invariant of a session. -/
structure Inv (s : Session) : Prop where
  ops : ∀ op ∈ s.ops, s.OpOk op
  order : s.ops.Pairwise Before
  /-- a listed channel sits at its id and is not closed -/
  listed : ∀ i c, ChanList.slot s.chanList i = some c →
    c < s.fresh ∧ (s.heap c).localId.toNat = i ∧ (s.heap c).msgClosed = false
  /-- it will be removed before it is closed -/
  closing : ∀ i c, ChanList.slot s.chanList i = some c → .closeMsg c ∈ s.ops →
    .remove (s.heap c).localId ∈ s.ops
  /-- ids are 32 bits wide -/
  short : s.chanList.length < 2 ^ 32
  incoming : ∀ c ∈ s.incoming, c < s.fresh ∧ (s.heap c).direction = .inbound
  /-- a channel leaves the list by the message that ends it, or with the loop -/
  unlisted : s.running = true → ∀ c < s.fresh,
    ChanList.slot s.chanList (s.heap c).localId.toNat = some c ∨ (s.heap c).ended = true
  /-- an accepted channel is confirmed or about to be -/
  confirmed : ∀ c < s.fresh, (s.heap c).direction = .inbound →
    .confirm c ∈ s.ops ∨ (s.heap c).sent.any Message.isConfirm = true
  fault : s.fault = none ∨ s.fault = some .outOfRange

theorem Inv.start : newSession.Inv where
  ops := by simp [newSession]
  order := .nil
  listed := by simp [newSession, ChanList.slot]
  closing := by simp [newSession, ChanList.slot]
  short := by decide
  incoming := by simp [newSession]
  unlisted := by simp [newSession]
  confirmed := by simp [newSession]
  fault := .inl rfl

theorem Inv.slot_inj (h : s.Inv) {i j c : Nat} (hi : ChanList.slot s.chanList i = some c)
    (hj : ChanList.slot s.chanList j = some c) : i = j := by
  rw [← (h.listed i c hi).2.1, (h.listed j c hj).2.1]

theorem Inv.dropAll_nodup (h : s.Inv) : s.chanList.dropAll.Nodup := by
  rw [ChanList.dropAll, List.Nodup, List.pairwise_filterMap, List.pairwise_iff_getElem]
  intro i j hi hj hij c hc c' hc' heq
  have hslot : ∀ k (hk : k < s.chanList.length) d, s.chanList[k] = some d →
      ChanList.slot s.chanList k = some d := by
    intro k hk d hd
    simp [ChanList.slot, List.getElem?_eq_getElem hk, hd]
  subst heq
  exact Nat.ne_of_lt hij (h.slot_inj (hslot i hi c hc) (hslot j hj c hc'))

/-- An operation stays in order while nothing it rests on changes. -/
theorem OpOk.keep {op : LoopOp} (h : s.OpOk op) (hfresh : s.fresh ≤ s'.fresh)
    (hrun : s'.running = s.running)
    (hheap : ∀ c < s.fresh, Channel.Extends (s.heap c) (s'.heap c))
    (hmsg : ∀ c < s.fresh, (∃ m, op = .queue c m) ∨ op = .closeMsg c →
      (s'.heap c).msgClosed = (s.heap c).msgClosed)
    (hconf : ∀ c < s.fresh, op = .confirm c →
      (s'.heap c).sent.any Message.isConfirm = (s.heap c).sent.any Message.isConfirm)
    (hslot : ∀ id c, op = .remove id → ChanList.slot s.chanList id.toNat = some c →
      c < s.fresh ∧ ChanList.slot s'.chanList id.toNat = some c)
    (hwin : ∀ c, op = .closeWin c → .markClosed c ∈ s.ops →
      (s'.heap c).sentClose = true ∨ .markClosed c ∈ s'.ops) : s'.OpOk op := by
  cases op with
  | publish c =>
    exact ⟨Nat.lt_of_lt_of_le h.1 hfresh, (hheap c h.1).direction.trans h.2⟩
  | confirm c =>
    exact ⟨Nat.lt_of_lt_of_le h.1 hfresh, (hheap c h.1).direction.trans h.2.1,
      (hconf c h.1 rfl).trans h.2.2⟩
  | reject id => trivial
  | queue c m =>
    exact ⟨Nat.lt_of_lt_of_le h.1 hfresh, (hheap c h.1).handled.subset h.2.1,
      (hmsg c h.1 (.inl ⟨m, rfl⟩)).trans h.2.2⟩
  | reply c => exact ⟨Nat.lt_of_lt_of_le h.1 hfresh, (hheap c h.1).any_handled h.2⟩
  | remove id =>
    obtain ⟨c, hc, he⟩ := h
    obtain ⟨hlt, hc'⟩ := hslot id c rfl hc
    exact ⟨c, hc', (hheap c hlt).ended he⟩
  | eof c => exact Nat.lt_of_lt_of_le h hfresh
  | markClosed c => exact Nat.lt_of_lt_of_le h hfresh
  | closeMsg c => exact ⟨Nat.lt_of_lt_of_le h.1 hfresh, (hmsg c h.1 (.inr rfl)).trans h.2⟩
  | closeWin c =>
    refine ⟨Nat.lt_of_lt_of_le h.1 hfresh, ?_⟩
    rcases h.2 with hs | hm
    · exact .inl ((hheap c h.1).sentClose hs)
    · exact hwin c rfl hm
  | dropAll => exact hrun.trans h
  | connClose => exact hrun.trans h
  | signal => exact hrun.trans h
  | setErr e => exact hrun.trans h

/-- A step of the application (`done = none`), or the loop doing one operation, that
leaves the channel list alone. -/
structure Advance (s s' : Session) (done : Option LoopOp) : Prop where
  ops : s.ops = done.toList ++ s'.ops
  fresh : s'.fresh = s.fresh
  chanList : s'.chanList = s.chanList
  running : s'.running = s.running
  fault : s'.fault = s.fault
  incoming : ∀ c ∈ s'.incoming, c ∈ s.incoming ∨ done = some (.publish c)
  heap : ∀ c < s.fresh, Channel.Extends (s.heap c) (s'.heap c)
  msg : ∀ c < s.fresh,
    (s'.heap c).msgClosed = (s.heap c).msgClosed ∨ done = some (.closeMsg c)
  confirm : ∀ c < s.fresh,
    (s'.heap c).sent.any Message.isConfirm = (s.heap c).sent.any Message.isConfirm ∨
      done = some (.confirm c)
  confirmed : ∀ c, done = some (.confirm c) → (s'.heap c).sent.any Message.isConfirm = true
  mark : ∀ c, done = some (.markClosed c) → (s'.heap c).sentClose = true
  remove : ∀ id, done ≠ some (.remove id)

theorem Inv.advance {done : Option LoopOp} (h : s.Inv) (ha : s.Advance s' done) : s'.Inv := by
  have hback : ∀ op, op ∈ s'.ops → op ∈ s.ops := by
    intro op hop
    rw [ha.ops]
    exact List.mem_append_right _ hop
  have hord : ∀ op ∈ s'.ops, ∀ d, done = some d → Before d op := by
    intro op hop d hd
    have := h.order
    rw [ha.ops, hd] at this
    exact List.rel_of_pairwise_cons this hop
  have hcases : ∀ op, op ∈ s.ops → done = some op ∨ op ∈ s'.ops := by
    intro op hop
    rw [ha.ops] at hop
    rcases List.mem_append.mp hop with hd | ht
    · exact .inl (by simpa [eq_comm] using hd)
    · exact .inr ht
  have hmsg : ∀ i c, ChanList.slot s.chanList i = some c →
      (s'.heap c).msgClosed = (s.heap c).msgClosed := by
    intro i c hc
    refine (ha.msg c (h.listed i c hc).1).resolve_right fun hd => ?_
    have hrem := hcases _ (h.closing i c hc (by rw [ha.ops, hd]; simp))
    rcases hrem with hr | hr
    · exact ha.remove _ hr
    · exact hord _ hr _ hd
  exact {
    ops := by
      intro op hop
      refine (h.ops op (hback op hop)).keep (Nat.le_of_eq ha.fresh.symm) ha.running ha.heap
        ?_ ?_ ?_ ?_
      · intro c hc hop'
        refine (ha.msg c hc).resolve_right fun hd => ?_
        have := hord op hop _ hd
        rcases hop' with ⟨m, rfl⟩ | rfl
        · exact this
        · exact this rfl
      · intro c hc hop'
        refine (ha.confirm c hc).resolve_right fun hd => ?_
        exact hord op hop _ hd
      · intro id c _ hc
        rw [ha.chanList]
        exact ⟨(h.listed _ c hc).1, hc⟩
      · intro c _ hm
        rcases hcases _ hm with hd | ht
        · exact .inl (ha.mark c hd)
        · exact .inr ht
    order := by
      have := h.order
      rw [ha.ops] at this
      exact (List.pairwise_append.mp this).2.1
    listed := by
      intro i c hc
      rw [ha.chanList] at hc
      obtain ⟨h1, h2, h3⟩ := h.listed i c hc
      exact ⟨by rw [ha.fresh]; exact h1, by rw [(ha.heap c h1).localId]; exact h2,
        (hmsg i c hc).trans h3⟩
    closing := by
      intro i c hc hop
      rw [ha.chanList] at hc
      rw [(ha.heap c (h.listed i c hc).1).localId]
      exact (hcases _ (h.closing i c hc (hback _ hop))).resolve_left (ha.remove _)
    short := by rw [ha.chanList]; exact h.short
    incoming := by
      intro c hc
      rw [ha.fresh]
      rcases ha.incoming c hc with hi | hd
      · obtain ⟨h1, h2⟩ := h.incoming c hi
        exact ⟨h1, (ha.heap c h1).direction.trans h2⟩
      · obtain ⟨h1, h2⟩ := h.ops (.publish c) (by rw [ha.ops, hd]; simp)
        exact ⟨h1, (ha.heap c h1).direction.trans h2⟩
    unlisted := by
      intro hr c hc
      rw [ha.running] at hr
      rw [ha.fresh] at hc
      rw [ha.chanList, (ha.heap c hc).localId]
      exact (h.unlisted hr c hc).imp_right (ha.heap c hc).ended
    confirmed := by
      intro c hc hd
      rw [ha.fresh] at hc
      rw [(ha.heap c hc).direction] at hd
      rcases h.confirmed c hc hd with hop | hs
      · rcases hcases _ hop with hdone | ht
        · exact .inr (ha.confirmed c hdone)
        · exact .inl ht
      · exact .inr ((ha.heap c hc).any_sent hs)
    fault := by rw [ha.fault]; exact h.fault }

/-- The loop, with nothing in hand, takes up new operations. -/
theorem Inv.plan (h : s.Inv) (ho : s.ops = []) {ops : List LoopOp}
    (hok : ∀ op ∈ ops, OpOk { s with ops } op) (hord : ops.Pairwise Before)
    (hcl : ∀ i c, ChanList.slot s.chanList i = some c → .closeMsg c ∈ ops →
      .remove (s.heap c).localId ∈ ops) : Inv { s with ops } where
  ops := hok
  order := hord
  listed := h.listed
  closing := hcl
  short := h.short
  incoming := h.incoming
  unlisted := h.unlisted
  confirmed c hc hd := .inr ((h.confirmed c hc hd).resolve_left (by simp [ho]))
  fault := h.fault

/-- The loop ends. -/
theorem Inv.exit (h : s.Inv) (ho : s.ops = []) (e : LoopError) : (s.exit e).Inv where
  ops := by simp [Session.exit, exitOps, OpOk]
  order := exitOps_before e
  listed := h.listed
  closing := by simp [Session.exit, exitOps]
  short := h.short
  incoming := h.incoming
  unlisted := by simp [Session.exit]
  confirmed c hc hd := .inr ((h.confirmed c hc hd).resolve_left (by simp [ho]))
  fault := h.fault

/-! ## Each step -/

@[simp] theorem added_heap (s : Session) (mk : UInt32 → Channel) :
    (s.added mk).heap = Function.update s.heap s.fresh (mk (s.chanList.add s.fresh).2) := rfl

@[simp] theorem added_fresh (s : Session) (mk : UInt32 → Channel) :
    (s.added mk).fresh = s.fresh + 1 := rfl

theorem added_old (s : Session) (mk : UInt32 → Channel) {c : Nat} (hc : c < s.fresh) :
    (s.added mk).heap c = s.heap c :=
  Function.update_of_ne (Nat.ne_of_lt hc) _ _

theorem added_new (s : Session) (mk : UInt32 → Channel) :
    (s.added mk).heap s.fresh = mk (s.chanList.add s.fresh).2 :=
  Function.update_self _ _ _

theorem added_slot (mk : UInt32 → Channel) (hl : s.chanList.length + 1 < 2 ^ 32) (j : Nat) :
    ChanList.slot (s.added mk).chanList j
      = if j = (s.chanList.add s.fresh).2.toNat then some s.fresh
        else ChanList.slot s.chanList j :=
  (ChanList.slot_add s.fresh hl).2.1 j

/-- A new channel is registered while the operations in hand become `ops`. -/
theorem Inv.added (h : s.Inv) (hl : s.chanList.length + 1 < 2 ^ 32) {mk : UInt32 → Channel}
    (hid : ∀ id, (mk id).localId = id) (hmc : ∀ id, (mk id).msgClosed = false)
    {ops : List LoopOp} (hok : ∀ op ∈ ops, OpOk { s.added mk with ops } op)
    (hord : ops.Pairwise Before) (hcl : ∀ c, .closeMsg c ∈ ops → .closeMsg c ∈ s.ops)
    (hrem : ∀ id, .remove id ∈ s.ops → .remove id ∈ ops)
    (hconf : ∀ c, .confirm c ∈ s.ops → .confirm c ∈ ops)
    (hnew : ∀ id, (mk id).direction = .inbound → .confirm s.fresh ∈ ops) :
    Inv { s.added mk with ops } := by
  obtain ⟨hfree, -, hlen, -⟩ := ChanList.slot_add s.fresh hl
  have hcase : ∀ i c, ChanList.slot (s.added mk).chanList i = some c →
      (c = s.fresh ∧ i = (s.chanList.add s.fresh).2.toNat) ∨
        (c < s.fresh ∧ ChanList.slot s.chanList i = some c) := by
    intro i c hc
    rw [added_slot mk hl] at hc
    split at hc
    · next hi => cases hc; exact .inl ⟨rfl, hi⟩
    · exact .inr ⟨(h.listed i c hc).1, hc⟩
  exact {
    ops := hok
    order := hord
    listed := by
      intro i c hc
      show c < s.fresh + 1 ∧ ((s.added mk).heap c).localId.toNat = i ∧
        ((s.added mk).heap c).msgClosed = false
      rcases hcase i c hc with ⟨rfl, rfl⟩ | ⟨hlt, hc⟩
      · rw [added_new, hid]
        exact ⟨Nat.lt_succ_self _, rfl, hmc _⟩
      · rw [added_old s mk hlt]
        exact ⟨Nat.lt_succ_of_lt hlt, (h.listed i c hc).2⟩
    closing := by
      intro i c hc hop
      show .remove ((s.added mk).heap c).localId ∈ ops
      have hold := h.ops _ (hcl c hop)
      rcases hcase i c hc with ⟨rfl, rfl⟩ | ⟨hlt, hc⟩
      · exact absurd hold.1 (Nat.lt_irrefl _)
      · rw [added_old s mk hlt]
        exact hrem _ (h.closing i c hc (hcl c hop))
    short := Nat.lt_of_le_of_lt hlen hl
    incoming := by
      intro c hc
      show c < s.fresh + 1 ∧ ((s.added mk).heap c).direction = .inbound
      obtain ⟨h1, h2⟩ := h.incoming c hc
      rw [added_old s mk h1]
      exact ⟨Nat.lt_succ_of_lt h1, h2⟩
    unlisted := by
      intro hr c hc
      show ChanList.slot (s.added mk).chanList ((s.added mk).heap c).localId.toNat = some c ∨
        ((s.added mk).heap c).ended = true
      rw [added_slot mk hl]
      rcases Nat.lt_succ_iff_lt_or_eq.mp hc with hlt | rfl
      · rw [added_old s mk hlt]
        refine (h.unlisted hr c hlt).imp_left fun hc => ?_
        rw [if_neg, hc]
        intro heq
        rw [heq, hfree] at hc
        cases hc
      · rw [added_new, hid, if_pos rfl]
        exact .inl rfl
    confirmed := by
      intro c hc hd
      show LoopOp.confirm c ∈ ops ∨ ((s.added mk).heap c).sent.any Message.isConfirm = true
      change ((s.added mk).heap c).direction = .inbound at hd
      rcases Nat.lt_succ_iff_lt_or_eq.mp hc with hlt | rfl
      · rw [added_old s mk hlt] at hd ⊢
        exact (h.confirmed c hlt hd).imp_left (hconf c)
      · rw [added_new] at hd
        exact .inl (hnew _ hd)
    fault := h.fault }

/-- A goroutine of the application changes one channel object. -/
theorem advance_call {c : Nat} {ch : Channel} (hc : Channel.Extends (s.heap c) ch)
    (hmsg : ch.msgClosed = (s.heap c).msgClosed)
    (hconf : ch.sent.any Message.isConfirm = (s.heap c).sent.any Message.isConfirm) :
    s.Advance (s.put c ch) none where
  ops := rfl
  fresh := rfl
  chanList := rfl
  running := rfl
  fault := rfl
  incoming := fun _ h => .inl h
  heap := by
    intro c' _
    by_cases h : c' = c
    · subst h; simpa using hc
    · simpa [h] using Channel.Extends.refl _
  msg := by
    intro c' _
    by_cases h : c' = c
    · subst h; simpa using hmsg
    · simp [h]
  confirm := by
    intro c' _
    by_cases h : c' = c
    · subst h; simpa using hconf
    · simp [h]
  confirmed := by simp
  mark := by simp
  remove := by simp

/-- The loop does an operation that changes one channel object. -/
theorem advance_op {op : LoopOp} {c : Nat} {ch : Channel} {ops : List LoopOp}
    (ho : s.ops = op :: ops) (hc : Channel.Extends (s.heap c) ch)
    (hmsg : ch.msgClosed = (s.heap c).msgClosed ∨ op = .closeMsg c)
    (hconf : ch.sent.any Message.isConfirm = (s.heap c).sent.any Message.isConfirm ∨
      op = .confirm c)
    (hconfd : ∀ c', op = .confirm c' → c' = c ∧ ch.sent.any Message.isConfirm = true)
    (hmark : ∀ c', op = .markClosed c' → c' = c ∧ ch.sentClose = true)
    (hrem : ∀ id, op ≠ .remove id) : s.Advance { s.put c ch with ops } (some op) where
  ops := ho
  fresh := rfl
  chanList := rfl
  running := rfl
  fault := rfl
  incoming := fun _ h => .inl h
  heap := by
    intro c' _
    by_cases h : c' = c
    · subst h; simpa using hc
    · simpa [h] using Channel.Extends.refl _
  msg := by
    intro c' _
    by_cases h : c' = c
    · subst h; simpa using hmsg
    · simp [h]
  confirm := by
    intro c' _
    by_cases h : c' = c
    · subst h; simpa using hconf
    · simp [h]
  confirmed := by
    intro c' hd
    obtain ⟨rfl, h⟩ := hconfd c' (Option.some.inj hd)
    simpa using h
  mark := by
    intro c' hd
    obtain ⟨rfl, h⟩ := hmark c' (Option.some.inj hd)
    simpa using h
  remove := fun id hd => hrem id (Option.some.inj hd)

/-- The loop does an operation that concerns no channel object. -/
theorem advance_skip {op : LoopOp} {ops : List LoopOp} (ho : s.ops = op :: ops)
    (hheap : s'.heap = s.heap) (hops : s'.ops = ops) (hfresh : s'.fresh = s.fresh)
    (hlist : s'.chanList = s.chanList) (hrun : s'.running = s.running)
    (hfault : s'.fault = s.fault)
    (hin : ∀ c ∈ s'.incoming, c ∈ s.incoming ∨ op = .publish c)
    (hconf : ∀ c, op ≠ .confirm c) (hmark : ∀ c, op ≠ .markClosed c)
    (hrem : ∀ id, op ≠ .remove id) : s.Advance s' (some op) where
  ops := by rw [ho, hops]; rfl
  fresh := hfresh
  chanList := hlist
  running := hrun
  fault := hfault
  incoming := fun c hc => (hin c hc).imp_right (congrArg some)
  heap := fun c _ => by rw [hheap]; exact .refl _
  msg := fun c _ => .inl (by rw [hheap])
  confirm := fun c _ => .inl (by rw [hheap])
  confirmed := fun c hd => absurd (Option.some.inj hd) (hconf c)
  mark := fun c hd => absurd (Option.some.inj hd) (hmark c)
  remove := fun id hd => absurd (Option.some.inj hd) (hrem id)

theorem advance_confirm {c : Nat} {ops : List LoopOp} (ho : s.ops = .confirm c :: ops)
    (hd : (s.heap c).direction = .inbound) (hn : (s.heap c).sent.any Message.isConfirm = false) :
    s.Advance { s.put c ((s.heap c).sends [(s.heap c).confirmMessage]) with ops }
      (some (.confirm c)) := by
  refine advance_op ho (Channel.Move.extends (.confirm c hd hn)) (.inl rfl) (.inr rfl) ?_
    (by simp) (by simp)
  intro c' hc'
  cases hc'
  simp [Channel.sends, Channel.confirmMessage, Message.isConfirm]

/-- `chanList.remove`: the channel that goes has handled the message that ends it. -/
theorem Inv.remove (h : s.Inv) {id : UInt32} {ops : List LoopOp} (ho : s.ops = .remove id :: ops) :
    Inv { s with ops, chanList := s.chanList.remove id } := by
  have hord := h.order
  rw [ho, List.pairwise_cons] at hord
  have hslot := ChanList.slot_remove h.short id
  obtain ⟨c₀, hc₀, hend⟩ := h.ops (.remove id) (by simp [ho])
  have hsome : ∀ i c, ChanList.slot (s.chanList.remove id) i = some c →
      i ≠ id.toNat ∧ ChanList.slot s.chanList i = some c := fun i c hc =>
    ChanList.slot_of_remove h.short hc
  exact {
    ops := by
      intro op hop
      refine (h.ops op (by simp [ho, hop])).keep (Nat.le_refl _) rfl (fun c _ => .refl _)
        (fun _ _ _ => rfl) (fun _ _ _ => rfl) ?_ ?_
      · rintro id' c rfl -
        exact (hord.1 _ hop).elim
      · intro c _ hm
        rw [ho] at hm
        exact .inr (by simpa using hm)
    order := hord.2
    listed := fun i c hc => h.listed i c (hsome i c hc).2
    closing := by
      intro i c hc hop
      obtain ⟨hi, hc⟩ := hsome i c hc
      have hrem := h.closing i c hc (by simp [ho, hop])
      rw [ho, List.mem_cons] at hrem
      refine hrem.resolve_left fun heq => hi ?_
      rw [← (h.listed i c hc).2.1, LoopOp.remove.inj heq]
    short := by
      show (s.chanList.remove id).length < 2 ^ 32
      rw [ChanList.remove_length]
      exact h.short
    incoming := h.incoming
    unlisted := by
      intro hr c hc
      show ChanList.slot (s.chanList.remove id) _ = _ ∨ _
      rw [hslot]
      rcases h.unlisted hr c hc with hl | he
      · split
        · next hi =>
          rw [hi, hc₀] at hl
          cases hl
          exact .inr hend
        · exact .inl hl
      · exact .inr he
    confirmed := by
      intro c hc hd
      refine (h.confirmed c hc hd).imp_left fun hop => ?_
      rw [ho] at hop
      simpa using hop
    fault := h.fault }

/-- `chanList.dropAll`: every channel still listed is closed once. -/
theorem Inv.dropAll (h : s.Inv) {ops : List LoopOp} (ho : s.ops = .dropAll :: ops) :
    Inv { s with chanList := [], ops := s.chanList.dropAll.flatMap closeOps ++ ops } := by
  have hord := h.order
  rw [ho, List.pairwise_cons] at hord
  have hstop : s.running = false := h.ops .dropAll (by simp [ho])
  have htail : ∀ op ∈ ops, op = .connClose ∨ op = .signal ∨ ∃ e, op = .setErr e := by
    intro op hop
    have := hord.1 op hop
    cases op with
    | connClose => exact .inl rfl
    | signal => exact .inr (.inl rfl)
    | setErr e => exact .inr (.inr ⟨e, rfl⟩)
    | _ => exact False.elim this
  have hmem : ∀ c ∈ s.chanList.dropAll, c < s.fresh ∧ (s.heap c).msgClosed = false := by
    intro c hc
    obtain ⟨i, hi⟩ := ChanList.mem_dropAll.mp hc
    obtain ⟨h1, -, h3⟩ := h.listed i c hi
    exact ⟨h1, h3⟩
  have hcl : ∀ op ∈ s.chanList.dropAll.flatMap closeOps, ∃ c ∈ s.chanList.dropAll,
      op = .eof c ∨ op = .closeMsg c ∨ op = .markClosed c ∨ op = .closeWin c := by
    intro op hop
    obtain ⟨c, hc, hop⟩ := List.mem_flatMap.mp hop
    exact ⟨c, hc, by simpa [closeOps] using hop⟩
  exact {
    ops := by
      intro op hop
      rcases List.mem_append.mp hop with hop | hop
      · obtain ⟨c, hc, rfl | rfl | rfl | rfl⟩ := hcl op hop
        · exact (hmem c hc).1
        · exact hmem c hc
        · exact (hmem c hc).1
        · refine ⟨(hmem c hc).1, .inr (List.mem_append_left _ ?_)⟩
          exact List.mem_flatMap.mpr ⟨c, hc, by simp [closeOps]⟩
      · rcases htail op hop with rfl | rfl | ⟨e, rfl⟩ <;> exact hstop
    order := by
      rw [List.pairwise_append]
      refine ⟨?_, hord.2, ?_⟩
      · rw [List.pairwise_flatMap]
        exact ⟨fun c _ => closeOps_before c, h.dropAll_nodup.imp closeOps_before_of_ne⟩
      · intro op hop op' hop'
        obtain ⟨c, -, rfl | rfl | rfl | rfl⟩ := hcl op hop <;>
          rcases htail op' hop' with rfl | rfl | ⟨e, rfl⟩ <;> exact trivial
    listed := by simp [ChanList.slot]
    closing := by simp [ChanList.slot]
    short := by simp
    incoming := h.incoming
    unlisted := by simp [hstop]
    confirmed := by
      intro c hc hd
      refine .inr ((h.confirmed c hc hd).resolve_left fun hop => ?_)
      rw [ho, List.mem_cons] at hop
      rcases hop with hop | hop
      · cases hop
      · rcases htail _ hop with hop | hop | ⟨e, hop⟩ <;> cases hop
    fault := h.fault }

/-- What `handle` puts in hand is in order. -/
theorem Inv.handled (h : s.Inv) (ho : s.ops = []) {c : Nat} {ch : Channel} {m : Message}
    {ops : List LoopOp} (hf : Decoded (.ok m)) (hm : m.channel.2 = true)
    (hg : s.chanList.getChan m.channel.1 = some c) (hh : (s.heap c).handle c m = .ok (ch, ops)) :
    Inv { s.put c { ch with handled := ch.handled ++ [m] } with ops } := by
  rw [ChanList.getChan_eq h.short] at hg
  obtain ⟨hlt, hid, hmc⟩ := h.listed _ c hg
  have hmove := Channel.Move.of_handle hf hh
  have hext : Channel.Extends (s.heap c) { ch with handled := ch.handled ++ [m] } := by
    simpa using hmove.extends
  obtain ⟨hmsg, hsent, -, hops⟩ := Channel.handle_ops hh
  have h1 : Inv (s.put c { ch with handled := ch.handled ++ [m] }) :=
    h.advance (advance_call hext hmsg (by rw [hsent]))
  have hin : m ∈ ch.handled ++ [m] := by simp
  rcases hops with rfl | ⟨m', rfl, rfl⟩ | ⟨m', rfl, rfl⟩ | ⟨m', rfl, rfl⟩
  · exact h1.plan ho (by simp) .nil (by simp)
  · refine h1.plan ho ?_ (reply_before c _) ?_
    · intro op hop
      simp only [closeOps, List.mem_cons, List.not_mem_nil, or_false] at hop
      rcases hop with rfl | rfl | rfl | rfl | rfl | rfl
      · exact ⟨hlt, by simp [Message.isClose]⟩
      · exact ⟨c, hid ▸ hg, by simp [Channel.ended, Message.isClose]⟩
      · exact hlt
      · exact ⟨hlt, by simpa using hmsg.trans hmc⟩
      · exact hlt
      · exact ⟨hlt, .inr (by simp [closeOps])⟩
    · intro i c' hc' hop
      have heq : c' = c := by simpa [closeOps] using hop
      subst heq
      simp [hext.localId]
  · refine h1.plan ho ?_ (by simp) (by simp)
    intro op hop
    rw [List.mem_singleton] at hop
    subst hop
    exact ⟨hlt, by simp, by simpa using hmsg.trans hmc⟩
  · refine h1.plan ho ?_ (List.pairwise_pair.mpr trivial) (by simp)
    intro op hop
    simp only [List.mem_cons, List.not_mem_nil, or_false] at hop
    rcases hop with rfl | rfl
    · exact ⟨c, hg, by simp [Channel.ended, Message.isFailure]⟩
    · exact ⟨hlt, by simp, by simpa using hmsg.trans hmc⟩

/-- Nothing waits behind a `confirm` or a `reject`. -/
theorem Inv.alone (h : s.Inv) {op : LoopOp} {ops : List LoopOp} (ho : s.ops = op :: ops)
    (hop : ∀ op', ¬ Before op op') : ops = [] := by
  have horder := h.order
  rw [ho, List.pairwise_cons] at horder
  cases ops with
  | nil => rfl
  | cons op' ops => exact absurd (horder.1 op' List.mem_cons_self) (hop op')

/-- Every step of a session keeps the invariant. -/
theorem Inv.step (h : s.Inv) {a : Act} {out : List Packet} (ht : Trans s a s' out) : s'.Inv := by
  have hok : ∀ op ops, s.ops = op :: ops → s.OpOk op := fun op ops ho => h.ops op (by simp [ho])
  cases ht with
  | register hl =>
    refine h.added hl (fun _ => rfl) (fun _ => rfl) ?_ h.order (fun _ => id) (fun _ => id)
      (fun _ => id) (by simp [outboundChannel])
    intro op hop
    refine (h.ops op hop).keep (Nat.le_succ _) rfl ?_ ?_ ?_ ?_ fun c _ hm => .inr hm
    · intro c hc
      exact added_old s outboundChannel hc ▸ .refl _
    · intro c hc _
      exact congrArg Channel.msgClosed (added_old s outboundChannel hc)
    · intro c hc _
      exact congrArg (fun ch => ch.sent.any Message.isConfirm) (added_old s outboundChannel hc)
    · intro id c _ hc
      refine ⟨(h.listed _ c hc).1, ?_⟩
      show ChanList.slot (s.added outboundChannel).chanList _ = _
      rw [added_slot _ hl, if_neg, hc]
      intro heq
      rw [heq, (ChanList.slot_add s.fresh hl).1] at hc
      cases hc
  | call hc hstep =>
    have hmove := Channel.Move.of_step hstep
    obtain ⟨hmc, -, hconf⟩ := hmove.call_frame
    exact h.advance (advance_call hmove.extends hmc
      (by simp [hconf, hmove.sent_eq]))
  | @accept c incoming hi =>
    have hd := (h.incoming c (by rw [hi]; simp)).2
    have hext : Channel.Extends (s.heap c) { s.heap c with held := true } := by
      simpa using Channel.Move.extends (.hold hd)
    have h1 := h.advance (advance_call hext rfl rfl)
    refine { h1 with incoming := fun c' hc' => h1.incoming c' ?_ }
    show c' ∈ s.incoming
    rw [hi]
    exact List.mem_cons_of_mem _ hc'
  | acceptEOF hc => exact { h with }
  | close => exact { h with }
  | outOfRange hr ho => exact { h with fault := .inr rfl }
  | undecoded hr ho he => exact h.exit ho _
  | unknown hr ho hm hg => exact h.exit ho _
  | refuse hr ho hm hg hh => exact h.exit ho _
  | handle hr ho hf hm hg hh => exact h.handled ho hf hm hg hh
  | rejectOpen hr ho hm => exact h.plan ho (by simp [OpOk]) (by simp) (by simp)
  | @handleOpen m hr ho hm hl =>
    refine h.added hl (fun _ => rfl) (fun _ => rfl) ?_ (List.pairwise_pair.mpr rfl) (by simp)
      (by simp [ho]) (by simp [ho]) (by simp)
    have hnew := added_new s (inboundChannel m)
    intro op hop
    simp only [List.mem_cons, List.not_mem_nil, or_false] at hop
    rcases hop with rfl | rfl
    · exact ⟨Nat.lt_succ_self _, congrArg Channel.direction hnew⟩
    · exact ⟨Nat.lt_succ_self _, congrArg Channel.direction hnew,
        congrArg (fun ch => ch.sent.any Message.isConfirm) hnew⟩
  | publish ok ho hi =>
    exact h.advance (advance_skip ho rfl rfl rfl rfl rfl rfl
      (by simp +contextual [eq_comm]) (by simp) (by simp) (by simp))
  | confirm ho =>
    obtain ⟨-, hd, hn⟩ := hok _ _ ho
    exact h.advance (advance_confirm ho hd hn)
  | confirmFailed ho =>
    obtain ⟨-, hd, hn⟩ := hok _ _ ho
    have h1 := h.advance (advance_confirm ho hd hn)
    exact h1.exit (h.alone ho fun _ => id) _
  | reject ho =>
    exact h.advance (advance_skip ho rfl rfl rfl rfl rfl rfl (fun _ => .inl) (by simp) (by simp)
      (by simp))
  | @rejectFailed id ops ho =>
    have h1 : Inv { s with ops } := h.advance (advance_skip ho rfl rfl rfl rfl rfl rfl
      (fun _ => .inl) (by simp) (by simp) (by simp))
    exact h1.exit (h.alone ho fun _ hb => hb) _
  | @queue c m ops ok ho hc hq =>
    refine h.advance (advance_op ho ?_ (.inl rfl) (.inl rfl) (by simp) (by simp) (by simp))
    simpa using Channel.Move.extends (.queue c (hok _ _ ho).2.1)
  | queueClosed ok ho hc => simp [(hok _ _ ho).2.2] at hc
  | @reply c ops ok ho =>
    have hmove := Channel.Move.of_reply c (hok _ _ ho).2
    refine h.advance (advance_op ho hmove.extends ?_ ?_ (by simp) (by simp) (by simp))
    all_goals
      rcases (s.heap c).Close_eq with ⟨-, he⟩ | ⟨-, he⟩ <;>
        simp [he, Message.isConfirm]
  | remove ok ho => exact h.remove ho
  | @eof c ops ok ho =>
    refine h.advance (advance_op ho ?_ (.inl rfl) (.inl rfl) (by simp) (by simp) (by simp))
    simpa using Channel.Move.extends (.eof c)
  | @closeMsg c ops ok ho hc =>
    refine h.advance (advance_op ho ?_ (.inr rfl) (.inl rfl) (by simp) (by simp) (by simp))
    simpa using Channel.Move.extends (.closeMsg c)
  | closeMsgTwice ok ho hc => simp [(hok _ _ ho).2] at hc
  | @markClosed c ops ok ho =>
    refine h.advance (advance_op ho ?_ (.inl rfl) (.inl rfl) (by simp) ?_ (by simp))
    · simpa using Channel.Move.extends (.markClosed c)
    · intro c' hc'
      cases hc'
      exact ⟨rfl, rfl⟩
  | closeWin ok ho =>
    refine h.advance (advance_op ho ?_ (.inl rfl) (.inl rfl) (by simp) (by simp) (by simp))
    exact ⟨rfl, rfl, List.prefix_refl _, List.prefix_refl _, id⟩
  | dropAll ok ho => exact h.dropAll ho
  | connClose ok ho | signal ok ho | setErr ok ho =>
    exact h.advance (advance_skip ho rfl rfl rfl rfl rfl rfl (fun _ => .inl) (by simp) (by simp)
      (by simp))

theorem exists_trans {a : Act} (h : s.next a = some s') : ∃ out, Trans s a s' out := by
  simp only [next, Option.map_eq_some_iff] at h
  obtain ⟨⟨s1, out⟩, hs, rfl⟩ := h
  exact ⟨out, .of_step hs⟩

theorem Inv.of_run {ok : Session → Act → Prop} (run : Run next ok newSession s) : s.Inv := by
  refine run.invariant .start fun s a s' _ h _ hn => ?_
  obtain ⟨out, ht⟩ := exists_trans hn
  exact h.step ht

end Session

end Qtalk.Mux
