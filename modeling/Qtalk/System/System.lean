import Qtalk.Mux.Opening

/-!
# Two sessions

Two sessions connected by a reliable transport: each direction delivers the encoded
packets whole, in order and without loss. A step is a step of one of the two sessions,
under any schedule of its goroutines, or the delivery of the oldest packet to the other
session's loop.

`peer` is history: it pairs the channel that sent an `OpenMessage` with the one created
for it.
-/

namespace Qtalk.Mux
open Qtalk.Codec Qtalk.Lib

inductive Side where
  | left
  | right
  deriving DecidableEq, Repr

def Side.other : Side → Side
  | .left => .right
  | .right => .left

@[simp] theorem Side.other_other (x : Side) : x.other.other = x := by cases x <;> rfl

@[simp] theorem Side.other_ne (x : Side) : x.other ≠ x := by cases x <;> nofun

@[simp] theorem Side.ne_other (x : Side) : x ≠ x.other := by cases x <;> nofun

theorem Side.eq_or_other (x z : Side) : z = x ∨ z = x.other := by
  cases x <;> cases z <;> simp [Side.other]

structure System where
  sess : Side → Session
  /-- the packets encoded at a side and not yet decoded at the other, oldest first -/
  wire : Side → List Packet
  peer : Side → Nat → Option Nat

namespace System

def start : System where
  sess _ := newSession
  wire _ := []
  peer _ _ := none

inductive Act where
  | app (x : Side) (a : Session.Act)
  /-- the oldest packet on its way to side `x` is decoded there -/
  | deliver (x : Side)

/-- The steps of a session that need no packet, on a transport that does not fail: a write
fails only where the session itself has closed the connection, and the application does
not close it. -/
def reliable (s : Session) : Session.Act → Bool
  | .recv _ | .close => false
  | .call _ (.sendOpen ok) | .call _ (.sendData _ ok) | .loop ok => ok || s.connClosed
  | _ => true

/-- The pairing after packet `p` took the session of side `x` to `s`. -/
def paired (y : System) (x : Side) (p : Packet) (s : Session) : Side → Nat → Option Nat :=
  if (y.sess x).fresh < s.fresh then
    match p.src with
    | none => y.peer
    | some c => fun z e =>
      if z = x ∧ e = (y.sess x).fresh then some c
      else if z = x.other ∧ e = c then some (y.sess x).fresh
      else y.peer z e
  else y.peer

def next (y : System) : Act → Option System
  | .app x a =>
    if reliable (y.sess x) a then
      match (y.sess x).step a with
      | none => none
      | some (s, out) =>
        some { y with
          sess := Function.update y.sess x s
          wire := Function.update y.wire x (y.wire x ++ out) }
    else none
  | .deliver x =>
    match y.wire x.other with
    | [] => none
    | p :: ps =>
      match (y.sess x).next (.recv (.ok p.msg)) with
      | none => none
      | some s =>
        some {
          sess := Function.update y.sess x s
          wire := Function.update y.wire x.other ps
          peer := y.paired x p s }

/-- Channel object `c` of side `x`. -/
def chan (y : System) (x : Side) (c : Nat) : Channel := (y.sess x).heap c

/-- The messages of channel `c` of side `x` that are in flight. -/
def flow (y : System) (x : Side) (c : Nat) : List Message := Session.sentBy c (y.wire x)

/-! ## What a step can do -/

/-- A step of the system, by what it does to the sessions. -/
inductive Moves (y : System) : Act → System → Prop where
  | app {x : Side} {a : Session.Act} {s : Session} {out : List Packet}
      (ha : reliable (y.sess x) a = true) (hs : (y.sess x).next a = some s)
      (ht : Session.Trans (y.sess x) a s out) :
      Moves y (.app x a)
        { y with
          sess := Function.update y.sess x s
          wire := Function.update y.wire x (y.wire x ++ out) }
  | deliver {x : Side} {p : Packet} {ps : List Packet} {s : Session}
      (hw : y.wire x.other = p :: ps) (hs : (y.sess x).next (.recv (.ok p.msg)) = some s)
      (ht : Session.Trans (y.sess x) (.recv (.ok p.msg)) s []) :
      Moves y (.deliver x)
        { sess := Function.update y.sess x s
          wire := Function.update y.wire x.other ps
          peer := y.paired x p s }

end System

theorem Session.Trans.recv_out {s s' : Session} {r : Except DecodeError Message}
    {out : List Packet} (ht : Session.Trans s (.recv r) s' out) : out = [] := by
  cases ht <;> rfl

namespace System

variable {y y' : System}

theorem Moves.of_next {a : Act} (h : y.next a = some y') : Moves y a y' := by
  cases a with
  | app x a =>
    simp only [next] at h
    split at h
    · next ha =>
      split at h
      · cases h
      · next s out hs =>
        cases h
        exact .app ha (by rw [Session.next, hs]; rfl) (.of_step hs)
    · cases h
  | deliver x =>
    simp only [next] at h
    split at h
    · cases h
    · next p ps hw =>
      split at h
      · cases h
      · next s hs =>
        cases h
        obtain ⟨out, ht⟩ := Session.exists_trans hs
        have hout := ht.recv_out
        subst hout
        exact .deliver hw hs ht

/-- The packets a step takes off the wire of side `z`. -/
def taken (y : System) : Act → Side → List Packet
  | .app _ _, _ => []
  | .deliver x, z => if z = x.other then (y.wire z).take 1 else []

/-- What a step does at one side, and the packets it puts on the wire there. -/
inductive At (y y' : System) (a : Act) (z : Side) : List Packet → Prop where
  | still (ha : a ≠ .deliver z) (hs : y'.sess z = y.sess z) : At y y' a z []
  | app {b : Session.Act} {out : List Packet} (ha : a = .app z b)
      (hr : reliable (y.sess z) b = true) (ht : Session.Trans (y.sess z) b (y'.sess z) out) :
      At y y' a z out
  | recv {p : Packet} {ps : List Packet} (ha : a = .deliver z) (hw : y.wire z.other = p :: ps)
      (ht : Session.Trans (y.sess z) (.recv (.ok p.msg)) (y'.sess z) []) : At y y' a z []

theorem Moves.side {a : Act} (h : Moves y a y') (z : Side) :
    ∃ out, y.wire z ++ out = y.taken a z ++ y'.wire z ∧ At y y' a z out := by
  cases h with
  | @app x a s out ha hs ht =>
    rcases x.eq_or_other z with rfl | rfl
    · exact ⟨out, by simp [taken], .app rfl ha (by simpa using ht)⟩
    · exact ⟨[], by simp [taken], .still nofun (by simp)⟩
  | @deliver x p ps s hw hs ht =>
    rcases x.eq_or_other z with rfl | rfl
    · exact ⟨[], by simp [taken], .recv rfl hw (by simpa using ht)⟩
    · exact ⟨[], by simp [taken, hw], .still (by simp) (by simp)⟩

/-- What a step does to the pairing of channels. -/
inductive Pairs (y y' : System) (a : Act) : Prop where
  | same (hp : y'.peer = y.peer)
      (hn : ∀ z c, (y.sess z).fresh ≤ c → c < (y'.sess z).fresh →
        ∃ id, y'.chan z c = Session.outboundChannel id)
      (hr : ∀ z p ps m, a = .deliver z → y.wire z.other = p :: ps → p.msg = .openMsg m →
        m.maxPacketSize < minPacketLength ∨ m.maxPacketSize > maxPacketLength)
  | opened {x : Side} {p : Packet} {ps : List Packet} {m : OpenMessage} {id : UInt32} {c : Nat}
      (ha : a = .deliver x) (hw : y.wire x.other = p :: ps) (hm : p.msg = .openMsg m)
      (hs : p.src = some c) (hf : (y'.sess x).fresh = (y.sess x).fresh + 1)
      (ho : y'.sess x.other = y.sess x.other)
      (hn : y'.chan x (y.sess x).fresh = Session.inboundChannel m id)
      (hp : ∀ z e, y'.peer z e =
        if z = x ∧ e = (y.sess x).fresh then some c
        else if z = x.other ∧ e = c then some (y.sess x).fresh
        else y.peer z e)

theorem Moves.pairs {a : Act} (h : Moves y a y') (hk : ∀ x, ∀ p ∈ y.wire x, p.src ≠ none) :
    Pairs y y' a := by
  cases h with
  | @app x a s out ha hs ht =>
    refine .same rfl (fun z c hc hc' => ?_) nofun
    rcases x.eq_or_other z with rfl | rfl
    · simp only [Function.update_self] at hc'
      rcases ht.fresh with hf | ⟨hf, ⟨-, id, hn⟩ | ⟨m, id, rfl, -⟩⟩
      · omega
      · obtain rfl : c = (y.sess z).fresh := by omega
        exact ⟨id, by simpa [chan] using hn⟩
      · cases ha
    · simp only [Function.update_of_ne (Side.other_ne x)] at hc'
      omega
  | @deliver x p ps s hw hs ht =>
    rcases ht.fresh with hf | ⟨hf, ⟨hr, -⟩ | ⟨m, id, hr, hn⟩⟩
    · refine .same (by simp [paired, hf]) (fun z c hc hc' => ?_) fun z p' ps' m ha hw' hm => ?_
      · rcases x.eq_or_other z with rfl | rfl
        · simp only [Function.update_self] at hc'
          omega
        · simp only [Function.update_of_ne (Side.other_ne x)] at hc'
          omega
      · cases ha
        rw [hw] at hw'
        cases hw'
        rw [hm] at ht
        cases ht with
        | unknown _ _ h2 => cases h2
        | refuse _ _ h2 => cases h2
        | handle _ _ _ h2 => cases h2
        | rejectOpen _ _ hbad => exact hbad
        | handleOpen => exact absurd hf (Nat.succ_ne_self _)
    · cases hr
    · have hm : p.msg = .openMsg m := by simpa using hr
      obtain ⟨c, hs⟩ := Option.ne_none_iff_exists'.mp (hk _ p (by rw [hw]; simp))
      refine .opened rfl hw hm hs (by simpa using hf) (by simp) (by simpa [chan] using hn)
        fun z e => ?_
      simp only [paired, hf, Nat.lt_succ_self, if_true, hs]

variable {okY : System → Act → Prop} {okS : Session → Session.Act → Prop}

/-- Each side of a run is a run of its session. -/
theorem session_run (happ : ∀ y x a, okY y (.app x a) → okS (y.sess x) a)
    (hrecv : ∀ s r, okS s (.recv r)) (run : Run next okY start y) (x : Side) :
    Run Session.next okS newSession (y.sess x) := by
  induction run generalizing x with
  | start => exact .start
  | step a hr hok hn ih =>
    cases Moves.of_next hn with
    | @app z b s out ha hs ht =>
      by_cases hx : x = z
      · subst hx
        simpa using Run.step b (ih x) (happ _ _ _ hok) hs
      · simpa [hx] using ih x
    | @deliver z p ps s hw hs ht =>
      by_cases hx : x = z
      · subst hx
        simpa using Run.step _ (ih x) (hrecv _ _) hs
      · simpa [hx] using ih x

theorem any_run (run : Run next okY start y) (x : Side) :
    Run Session.next anyStep newSession (y.sess x) :=
  session_run (fun _ _ _ _ => trivial) (fun _ _ => trivial) run x

section

variable (run : Run next okY start y) {x : Side} {c : Nat} (hc : c < (y.sess x).fresh)

include run

theorem inv (x : Side) : (y.sess x).Inv := .of_run (any_run run x)

include hc

theorem accounts : (y.chan x c).Accounts := Session.accounts (any_run run x) c hc

theorem spoken : (y.chan x c).Spoken := Session.spoken (any_run run x) c hc

theorem acceptor (hd : (y.chan x c).direction = .inbound) : (y.chan x c).Acceptor :=
  Session.acceptors (any_run run x) c hc hd

theorem opener (hd : (y.chan x c).direction = .outbound) : (y.chan x c).Opener :=
  Session.openers (any_run run x) c hc hd

end

end System

end Qtalk.Mux
