import Qtalk.Mux.Answers
import Qtalk.System.System

/-!
# A transport with bounded buffers

Two sessions on a transport that holds at most `C` bytes in each direction: a write takes
its bytes one at a time while the buffer has room, or hands them to a waiting `Read`. The
locks that matter are part of the state: a goroutine in `Encode` waits for the encoder's
lock or has it until its packet is written, and meanwhile keeps the `writeMu` that `send`
took.

A goroutine of the application may go on while its packet is still waiting; it could be
another one. The loop may not. The transport is looked at as long as no connection is
closed. That the bytes of a packet are decoded to the packet is `decode_marshal`.
-/

namespace Qtalk.Mux
open Qtalk.Codec Qtalk.Lib

/-- A goroutine inside `Encode`. -/
structure Encoding where
  packet : Packet
  /-- it is the session loop -/
  loop : Bool
  /-- the channel whose `writeMu` it holds -/
  mu : Option Nat
  deriving DecidableEq, Repr

/-- One side: its session, its encoder and the transport to the other side. -/
structure Endpoint where
  session : Session := newSession
  /-- waiting in `enc.Lock()` -/
  waiting : List Encoding := []
  /-- inside `enc.w.Write` -/
  writing : Option Encoding := none
  /-- the bytes of its packet that the transport has not taken -/
  left : Nat := 0
  /-- the bytes in the buffer -/
  pipe : Nat := 0
  /-- the packets whose writing has begun and that the other side has not decoded -/
  wire : List Packet := []
  /-- the bytes of a packet that the decoder of this side has read so far -/
  got : Nat := 0

namespace Endpoint

/-- The goroutines inside `Encode`. -/
def inside (e : Endpoint) : List Encoding := e.waiting ++ e.writing.toList

/-- Nobody holds `writeMu` of the channel. -/
def free (e : Endpoint) (c : Nat) : Bool := e.inside.all (·.mu ≠ some c)

/-- The loop is inside `Encode`. -/
def encoding (e : Endpoint) : Bool := e.inside.any (·.loop)

/-- The loop is in `Decode`, or about to call it. -/
def Reading (e : Endpoint) : Prop :=
  e.session.running = true ∧ e.session.ops = [] ∧ e.encoding = false

instance (e : Endpoint) : Decidable e.Reading := inferInstanceAs (Decidable (_ ∧ _ ∧ _))

/-- The goroutine of a step gets the locks it takes, and the connection is not closed. -/
def ready (e : Endpoint) (a : Session.Act) : Bool :=
  a.sound && (e.session.needs a).all e.free &&
    !(a.isLoop && (e.encoding || e.session.ops.head? = some .connClose))

/-- A step of the session; what it sends waits for the encoder. -/
def acted (e : Endpoint) (a : Session.Act) (s : Session) (out : List Packet) : Endpoint :=
  { e with
    session := s
    waiting := e.waiting ++ out.map fun packet => ⟨packet, a.isLoop, e.session.needs a⟩ }

/-- `enc.Lock()` returns to number `k` of those that wait. -/
def locked (e : Endpoint) (k : Nat) (g : Encoding) : Endpoint :=
  { e with
    waiting := e.waiting.eraseIdx k
    writing := some g
    left := bytes g.packet.msg
    wire := e.wire ++ [g.packet] }

/-- What can happen at one side. -/
inductive Event where
  | act (a : Session.Act)
  | lock (k : Nat)
  /-- the buffer takes a byte -/
  | put
  /-- `enc.w.Write` and `Encode` return -/
  | unlock
  /-- the other side reads a byte -/
  | give
  /-- `Decode` reads a byte of a packet -/
  | get (p : Packet)
  /-- `Decode` returns -/
  | packet (p : Packet)

/-- The events that need no part of the other side. -/
def Event.own : Event → Bool
  | .act _ | .lock _ | .put | .unlock => true
  | _ => false

def next (C : Nat) (e : Endpoint) : Event → Option Endpoint
  | .act a =>
    if e.ready a then (e.session.step a).map fun r => e.acted a r.1 r.2
    else none
  | .lock k =>
    if e.writing = none then (e.waiting[k]?).map (e.locked k)
    else none
  | .put =>
    if 0 < e.left ∧ e.pipe < C then some { e with left := e.left - 1, pipe := e.pipe + 1 }
    else none
  | .unlock =>
    if e.writing ≠ none ∧ e.left = 0 then some { e with writing := none }
    else none
  | .give =>
    if 0 < e.pipe then some { e with pipe := e.pipe - 1 }
    else if 0 < e.left then some { e with left := e.left - 1 }
    else none
  | .get p =>
    if e.Reading ∧ e.got < bytes p.msg then some { e with got := e.got + 1 }
    else none
  | .packet p =>
    if e.Reading ∧ e.got = bytes p.msg then
      (e.session.step (.recv (.ok p.msg))).map fun r => { e with session := r.1, got := 0 }
    else none

end Endpoint

/-- Two sides. -/
abbrev Piped := Side → Endpoint

namespace Piped
open Endpoint (Event)

def start : Piped := fun _ => {}

inductive Act where
  /-- something happens at side `x` alone -/
  | own (x : Side) (v : Event)
  /-- the decoder of side `x` reads a byte -/
  | read (x : Side)
  /-- the decoder of side `x` has a packet -/
  | packet (x : Side)

/-- Overwrite both sides. -/
def put (p : Piped) (x : Side) (e e' : Endpoint) : Piped :=
  Function.update (Function.update p x e) x.other e'

def next (C : Nat) (p : Piped) : Act → Option Piped
  | .own x v =>
    if v.own then ((p x).next C v).map fun e => Function.update p x e
    else none
  | .read x => do
    let packet ← (p x.other).wire.head?
    let e ← (p x).next C (.get packet)
    let e' ← (p x.other).next C .give
    some (p.put x e e')
  | .packet x => do
    let packet ← (p x.other).wire.head?
    let e ← (p x).next C (.packet packet)
    some (p.put x e { p x.other with wire := (p x.other).wire.tail })

end Piped

/-! ## What an event does -/

namespace Endpoint

variable {C : Nat} {e e' : Endpoint}

@[simp] theorem acted_session (e : Endpoint) (a : Session.Act) (s : Session) (out : List Packet) :
    (e.acted a s out).session = s := rfl

@[simp] theorem locked_session (e : Endpoint) (k : Nat) (g : Encoding) :
    (e.locked k g).session = e.session := rfl

/-- Every event, with its guard. -/
inductive Moves (C : Nat) (e : Endpoint) : Event → Endpoint → Prop where
  | act {a : Session.Act} {s : Session} {out : List Packet} (hr : e.ready a = true)
      (hs : e.session.next a = some s) (ht : Session.Trans e.session a s out) :
      Moves C e (.act a) (e.acted a s out)
  | lock {k : Nat} {g : Encoding} (hw : e.writing = none) (hk : e.waiting[k]? = some g) :
      Moves C e (.lock k) (e.locked k g)
  | put (hl : 0 < e.left) (hp : e.pipe < C) :
      Moves C e .put { e with left := e.left - 1, pipe := e.pipe + 1 }
  | unlock {g : Encoding} (hw : e.writing = some g) (hl : e.left = 0) :
      Moves C e .unlock { e with writing := none }
  | givePipe (hp : 0 < e.pipe) : Moves C e .give { e with pipe := e.pipe - 1 }
  | giveLeft (hp : e.pipe = 0) (hl : 0 < e.left) : Moves C e .give { e with left := e.left - 1 }
  | get {p : Packet} (hr : e.Reading) : Moves C e (.get p) { e with got := e.got + 1 }
  | packet {p : Packet} {s : Session} (hr : e.Reading)
      (hs : e.session.next (.recv (.ok p.msg)) = some s)
      (ht : Session.Trans e.session (.recv (.ok p.msg)) s []) :
      Moves C e (.packet p) { e with session := s, got := 0 }

theorem Moves.of_next {v : Event} (h : e.next C v = some e') : Moves C e v e' := by
  cases v with
  | act a =>
    simp only [next, Option.ite_none_right_eq_some, Option.map_eq_some_iff] at h
    obtain ⟨hr, ⟨s, out⟩, hs, rfl⟩ := h
    exact .act hr (by rw [Session.next, hs]; rfl) (.of_step hs)
  | lock k =>
    simp only [next, Option.ite_none_right_eq_some, Option.map_eq_some_iff] at h
    obtain ⟨hw, g, hk, rfl⟩ := h
    exact .lock hw hk
  | put =>
    simp only [next, Option.ite_none_right_eq_some, Option.some.injEq] at h
    obtain ⟨⟨hl, hp⟩, rfl⟩ := h
    exact .put hl hp
  | unlock =>
    simp only [next, Option.ite_none_right_eq_some, Option.some.injEq] at h
    obtain ⟨⟨hw, hl⟩, rfl⟩ := h
    obtain ⟨g, hg⟩ := Option.ne_none_iff_exists'.mp hw
    exact .unlock hg hl
  | give =>
    simp only [next] at h
    split at h
    · next hp => cases h; exact .givePipe hp
    · next hp =>
      split at h
      · next hl => cases h; exact .giveLeft (by omega) hl
      · cases h
  | get p =>
    simp only [next, Option.ite_none_right_eq_some, Option.some.injEq] at h
    obtain ⟨⟨hr, -⟩, rfl⟩ := h
    exact .get hr
  | packet p =>
    simp only [next, Option.ite_none_right_eq_some, Option.map_eq_some_iff] at h
    obtain ⟨⟨hr, -⟩, ⟨s, out⟩, hs, rfl⟩ := h
    have ht := Session.Trans.of_step hs
    rw [ht.recv_out] at ht
    exact .packet hr (by rw [Session.next, hs]; rfl) ht

/-! ## The locks -/

/-- What holds at each side in every run. -/
structure Inv (C : Nat) (e : Endpoint) : Prop where
  session : e.session.Inv
  plans : e.session.Plans
  sound : e.session.fault = none
  unclosed : e.session.connClosed = false
  fits : e.pipe ≤ C
  idle : e.writing = none → e.left = 0
  /-- a `writeMu` has one holder -/
  mutex : (e.inside.filterMap Encoding.mu).Nodup
  /-- the loop is one goroutine -/
  once : (e.inside.filter Encoding.loop).length ≤ 1
  /-- what it has to do after the answer it is sending -/
  rest : ∀ g ∈ e.inside, g.loop = true → e.session.running = true ∧
    (e.session.ops = [] ∨ ∃ c id, g.mu = some c ∧ e.session.ops = .remove id :: closeOps c)

theorem Inv.start (C : Nat) : Inv C {} where
  session := .start
  plans := .start
  sound := rfl
  unclosed := rfl
  fits := Nat.zero_le C
  idle _ := rfl
  mutex := .nil
  once := Nat.zero_le 1
  rest := nofun

theorem free_iff {c : Nat} : e.free c = true ↔ ∀ g ∈ e.inside, g.mu ≠ some c := by
  simp [free, List.all_eq_true]

theorem encoding_eq_false : e.encoding = false ↔ ∀ g ∈ e.inside, g.loop = false := by
  simp [encoding, List.any_eq_false]

/-- Fewer goroutines inside `Encode`, in any order. -/
theorem Inv.keep (h : e.Inv C) (hs : e'.session = e.session) (hp : e'.pipe ≤ C)
    (hw : e'.writing = none → e'.left = 0) (hi : e'.inside.Subperm e.inside) : e'.Inv C where
  session := hs ▸ h.session
  plans := hs ▸ h.plans
  sound := hs ▸ h.sound
  unclosed := hs ▸ h.unclosed
  fits := hp
  idle := hw
  mutex := by
    obtain ⟨l, hperm, hsub⟩ := hi
    exact (hperm.filterMap _).nodup_iff.mp ((hsub.filterMap _).nodup h.mutex)
  once := Nat.le_trans (hi.filter _).length_le h.once
  rest := by
    intro g hg hl
    rw [hs]
    exact h.rest g (hi.subset hg) hl

/-- The packets handed over in one step. -/
theorem acted_inside (e : Endpoint) (a : Session.Act) (s : Session) (out : List Packet) :
    (e.acted a s out).inside.Perm
      (out.map (fun packet => ⟨packet, a.isLoop, e.session.needs a⟩) ++ e.inside) := by
  simp only [inside, acted, ← List.append_assoc]
  exact List.perm_append_comm.append_right _

theorem mem_acted {a : Session.Act} {s : Session} {out : List Packet} {g : Encoding}
    (hg : g ∈ (e.acted a s out).inside) :
    g ∈ e.inside ∨ ∃ p ∈ out, g = ⟨p, a.isLoop, e.session.needs a⟩ := by
  rcases List.mem_append.mp ((e.acted_inside a s out).mem_iff.mp hg) with hg | hg
  · obtain ⟨p, hp, rfl⟩ := List.mem_map.mp hg
    exact .inr ⟨p, hp, rfl⟩
  · exact .inl hg

theorem locked_inside {k : Nat} {g : Encoding} (hw : e.writing = none) (hk : e.waiting[k]? = some g) :
    (e.locked k g).inside.Perm e.inside := by
  obtain ⟨hlt, rfl⟩ := List.getElem?_eq_some_iff.mp hk
  simp only [inside, locked, hw, Option.toList_some, Option.toList_none, List.append_nil]
  exact List.perm_append_comm.trans (List.getElem_cons_eraseIdx_perm hlt)

theorem encoding_of_mem {g : Encoding} (hg : g ∈ e.inside) (hl : g.loop = true) : e.encoding = true :=
  List.any_eq_true.mpr ⟨g, hg, hl⟩

theorem ready_sound {a : Session.Act} (h : e.ready a = true) : a.sound = true := by
  simp only [ready, Bool.and_eq_true] at h
  exact h.1.1

theorem ready_free {a : Session.Act} (h : e.ready a = true) {c : Nat} (hc : e.session.needs a = some c) :
    e.free c = true := by
  simp only [ready, Bool.and_eq_true, hc, Option.all_some] at h
  exact h.1.2

theorem ready_loop {a : Session.Act} (h : e.ready a = true) (ha : a.isLoop = true) : e.encoding = false := by
  simp only [ready, Bool.and_eq_true, ha, Bool.true_and, Bool.not_eq_true', Bool.or_eq_false_iff] at h
  exact h.2.1

theorem ready_conn {a : Session.Act} (h : e.ready a = true) (ha : a.isLoop = true) :
    e.session.ops.head? ≠ some .connClose := by
  simp only [ready, Bool.and_eq_true, ha, Bool.true_and, Bool.not_eq_true', Bool.or_eq_false_iff] at h
  simpa using h.2.2

/-- A step of the application leaves the loop alone. -/
theorem ready_frame {a : Session.Act} {s : Session} {out : List Packet} (h : e.ready a = true)
    (ht : Session.Trans e.session a s out) (ha : a.isLoop = false) :
    s.ops = e.session.ops ∧ s.running = e.session.running := by
  have hsound := ready_sound h
  refine ht.app_frame (fun r hr => ?_) fun ok hok => ?_
  · rw [hr] at hsound
    cases hsound
  · rw [hok] at ha
    cases ha

theorem Inv.act (h : e.Inv C) {a : Session.Act} {s : Session} {out : List Packet} (hr : e.ready a = true)
    (ht : Session.Trans e.session a s out) : (e.acted a s out).Inv C := by
  have hsound := ready_sound hr
  have hlen := h.plans.out_length ht hsound
  have hrecv : a ≠ .recv (.error .outOfRange) := by
    intro ha
    rw [ha] at hsound
    cases hsound
  have hperm := e.acted_inside a s out
  exact {
    session := h.session.step ht
    plans := h.plans.step ht
    sound := (h.session.fault_eq ht hrecv).trans h.sound
    unclosed := by
      refine (ht.connClosed ?_ (ready_conn hr)).trans h.unclosed
      intro ha
      rw [ha] at hsound
      cases hsound
    fits := h.fits
    idle := h.idle
    mutex := by
      rw [(hperm.filterMap _).nodup_iff, List.filterMap_append]
      refine List.nodup_append.mpr ⟨?_, h.mutex, ?_⟩
      · refine List.nodup_iff_count.mpr fun c => Nat.le_trans List.count_le_length ?_
        exact Nat.le_trans (List.length_filterMap_le _ _) (by simpa using hlen)
      · intro c hc c' hc' heq
        obtain ⟨g, hg, hgc⟩ := List.mem_filterMap.mp hc
        obtain ⟨p, -, rfl⟩ := List.mem_map.mp hg
        obtain ⟨g', hg', hgc'⟩ := List.mem_filterMap.mp hc'
        exact free_iff.mp (ready_free hr hgc) g' hg' (heq ▸ hgc')
    once := by
      rw [(hperm.filter _).length_eq, List.filter_append, List.length_append]
      cases ha : a.isLoop with
      | true =>
        have hnone := encoding_eq_false.mp (ready_loop hr ha)
        have hnil : e.inside.filter Encoding.loop = [] :=
          List.filter_eq_nil_iff.mpr fun g hg => by simp [hnone g hg]
        rw [hnil, List.length_nil, Nat.add_zero]
        exact Nat.le_trans (List.length_filter_le _ _) (by simpa using hlen)
      | false =>
        have hnil : (out.map fun p => (⟨p, false, e.session.needs a⟩ : Encoding)).filter Encoding.loop = [] :=
          List.filter_eq_nil_iff.mpr (by simp)
        rw [hnil, List.length_nil, Nat.zero_add]
        exact h.once
    rest := by
      intro g hg hl
      rcases mem_acted hg with hold | ⟨p, hp, rfl⟩
      · have ha : a.isLoop = false := by
          cases ha : a.isLoop with
          | false => rfl
          | true =>
            have hbusy := encoding_of_mem hold hl
            rw [ready_loop hr ha] at hbusy
            cases hbusy
        obtain ⟨hops, hrun⟩ := ready_frame hr ht ha
        rw [acted_session, hops, hrun]
        exact h.rest g hold hl
      · cases a with
        | loop ok =>
          obtain rfl : ok = true := hsound
          cases h.plans.handsOver ht with
          | published hnil | nothing hnil => rw [hnil] at hp; cases hp
          | answer _ _ hrun _ hrest =>
            refine ⟨hrun, ?_⟩
            rcases hrest with ⟨hnil, -⟩ | ⟨c, id, hops, hops'⟩
            · exact .inl hnil
            · exact .inr ⟨c, id, by simp [Session.needs, hops], hops'⟩
        | _ => cases hl }

/-- Every event keeps the invariant. -/
theorem Inv.step (h : e.Inv C) {v : Event} (hm : Moves C e v e') : e'.Inv C := by
  cases hm with
  | act hr hs ht => exact h.act hr ht
  | lock hw hk => exact h.keep rfl h.fits nofun (locked_inside hw hk).subperm
  | put hl hp =>
    refine h.keep rfl hp (fun hw => ?_) (List.Subperm.refl _)
    exact absurd (h.idle hw) (Nat.ne_of_gt hl)
  | unlock hw hl =>
    refine h.keep rfl h.fits (fun _ => hl) (List.Sublist.subperm ?_)
    simp [inside]
  | givePipe hp => exact h.keep rfl (Nat.le_trans (Nat.sub_le _ _) h.fits) h.idle (List.Subperm.refl _)
  | giveLeft hp hl =>
    refine h.keep rfl h.fits (fun hw => ?_) (List.Subperm.refl _)
    exact absurd (h.idle hw) (Nat.ne_of_gt hl)
  | get hr => exact h.keep rfl h.fits h.idle (List.Subperm.refl _)
  | packet hr hs ht =>
    exact {
      session := h.session.step ht
      plans := h.plans.step ht
      sound := (h.session.fault_eq ht nofun).trans h.sound
      unclosed := (ht.connClosed nofun nofun).trans h.unclosed
      fits := h.fits
      idle := h.idle
      mutex := h.mutex
      once := h.once
      rest := fun g hg hl => absurd (encoding_of_mem hg hl) (by
        show ¬ e.encoding = true
        rw [hr.2.2]
        nofun) }

end Endpoint

namespace Piped
open Endpoint (Event)

variable {C : Nat} {p p' : Piped}

/-- What a step does at one side. -/
inductive At (C : Nat) (p p' : Piped) (a : Act) (z : Side) : Prop where
  | still (hs : p' z = p z)
  | own {v : Event} (ha : a = .own z v) (hv : v.own = true) (hm : Endpoint.Moves C (p z) v (p' z))
  | read {k : Packet} (ha : a = .read z) (hm : Endpoint.Moves C (p z) (.get k) (p' z))
  | give (ha : a = .read z.other) (hr : (p z.other).Reading) (hm : Endpoint.Moves C (p z) .give (p' z))
  | packet {k : Packet} (ha : a = .packet z) (hk : (p z.other).wire.head? = some k)
      (hm : Endpoint.Moves C (p z) (.packet k) (p' z))
  | taken (ha : a = .packet z.other) (hr : (p z.other).Reading)
      (hs : p' z = { p z with wire := (p z).wire.tail })

@[simp] theorem put_same (p : Piped) (x : Side) (e e' : Endpoint) : p.put x e e' x = e := by
  simp [put]

@[simp] theorem put_other (p : Piped) (x : Side) (e e' : Endpoint) : p.put x e e' x.other = e' := by
  simp [put]

theorem At.of_next {a : Act} (h : next C p a = some p') (z : Side) : At C p p' a z := by
  cases a with
  | own x v =>
    simp only [next, Option.ite_none_right_eq_some, Option.map_eq_some_iff] at h
    obtain ⟨hv, e, he, rfl⟩ := h
    rcases x.eq_or_other z with rfl | rfl
    · exact .own rfl hv (by simpa using Endpoint.Moves.of_next he)
    · exact .still (by simp)
  | read x =>
    simp only [next, bind, Option.bind_eq_some_iff, Option.some.injEq] at h
    obtain ⟨k, hk, e, he, e', he', rfl⟩ := h
    have hm := Endpoint.Moves.of_next he
    rcases x.eq_or_other z with rfl | rfl
    · exact .read rfl (by simpa using hm)
    · refine .give (by simp) ?_ (by simpa using Endpoint.Moves.of_next he')
      cases hm with
      | get hr => simpa using hr
  | packet x =>
    simp only [next, bind, Option.bind_eq_some_iff, Option.some.injEq] at h
    obtain ⟨k, hk, e, he, rfl⟩ := h
    have hm := Endpoint.Moves.of_next he
    rcases x.eq_or_other z with rfl | rfl
    · exact .packet rfl hk (by simpa using hm)
    · refine .taken (by simp) ?_ (by simp)
      cases hm with
      | packet hr => simpa using hr

theorem At.inv {a : Act} {z : Side} (h : At C p p' a z) (hi : (p z).Inv C) : (p' z).Inv C := by
  cases h with
  | still hs => exact hs ▸ hi
  | own ha hv hm | read ha hm | give ha hr hm | packet ha hk hm => exact hi.step hm
  | taken ha hr hs =>
    rw [hs]
    exact hi.keep rfl hi.fits hi.idle (List.Subperm.refl _)

theorem inv {ok : Piped → Act → Prop} (run : Run (next C) ok start p) (z : Side) : (p z).Inv C := by
  refine run.invariant (I := fun p => (p z).Inv C) (.start C) fun p a p' _ h _ hn => ?_
  exact (At.of_next hn z).inv h

end Piped

end Qtalk.Mux
