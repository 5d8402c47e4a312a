import Qtalk.Codec.Decoder
import Qtalk.Mux.Shutdown
import Qtalk.System.Wired

/-!
# Two sessions on a transport that may fail

Either direction of the transport may break at any byte of any packet, each write and each
`Read` may fail, a `Read` may be answered with fewer bytes than it asks for, and either
session may be closed at any point. As long as its `Read`s are answered in full a session
decodes the packets of the other one by one (`deliver`); otherwise it decodes what the bytes
under way give when they are cut (`decode`).

A channel's buffer has one flag for the end of its stream. It is set by an `EOFMessage`, by a
`CloseMessage` and by the end of the session alike.
-/

namespace Qtalk.Mux
open Qtalk.Codec Qtalk.Lib

/-- The message ends a stream. -/
def endsStream (m : Message) : Bool := m.isEOF || m.isClose

structure Cuttable extends System where
  /-- nothing more of what a side encodes gets through -/
  cut : Side → Bool
  /-- the bytes of a side behind its packets under way, where there are no whole packets left -/
  rest : Side → Option (List UInt8)
  -- history
  /-- the packets that were read in full at a side -/
  decoded : Side → List Packet

namespace Cuttable

def start : Cuttable where
  toSystem := System.start
  cut _ := false
  rest _ := none
  decoded _ := []

inductive Act where
  | app (x : Side) (a : Session.Act)
  /-- the transport from side `x` breaks: of the packets under way `j` get through, and `n` of
  the bytes behind them -/
  | break (x : Side) (j n : Nat)
  /-- the oldest packet on its way to side `x` is decoded there -/
  | deliver (x : Side)
  /-- `Decode` at side `x` has its `Read`s answered as `cuts` says -/
  | decode (x : Side) (cuts : Nat → Nat)
  /-- a `Read` of `Decode` at side `x` fails -/
  | fail (x : Side) (e : ReadError)

/-- The step needs no packet. -/
def needsNone : Session.Act → Bool
  | .recv _ => false
  | _ => true

/-- The write of a packet fails. -/
def failsWrite : Session.Act → Bool
  | .call _ (.sendOpen ok) | .call _ (.sendData _ ok) | .loop ok => !ok
  | _ => false

/-- The bytes of some packets. -/
def bytes (ps : List Packet) : List UInt8 := ps.flatMap fun p => marshal p.msg

/-- What side `x` encodes is lost. -/
def shut (y : Cuttable) (x : Side) : Bool := y.cut x || (y.sess x).connClosed

/-- `Decode` at side `x`, on the bytes under way. -/
def reads (y : Cuttable) (x : Side) (cuts : Nat → Nat) : Except DecodeError Message × Cut :=
  Decode cutReader ⟨bytes (y.wire x.other) ++ (y.rest x.other).getD [], cuts⟩

/-- The session of side `x` goes to `s`, having encoded `out`. A write that fails is the last
one of its side; a break may take back what it has put under way. -/
def encode (y : Cuttable) (x : Side) (s : Session) (out : List Packet) (failed : Bool) : Cuttable :=
  { y with
    sess := Function.update y.sess x s
    wire := Function.update y.wire x
      (y.wire x ++ if y.shut x = true ∨ (y.rest x).isSome then [] else out)
    rest := Function.update y.rest x
      ((y.rest x).map (· ++ if y.shut x = true then [] else bytes out))
    cut := Function.update y.cut x (y.shut x || failed) }

def next (y : Cuttable) : Act → Option Cuttable
  | .app x a =>
    if needsNone a then
      match (y.sess x).step a with
      | none => none
      | some (s, out) => some (y.encode x s out (failsWrite a))
    else none
  | .break x j n =>
    some { y with
      wire := Function.update y.wire x ((y.wire x).take j)
      rest := Function.update y.rest x
        (some ((bytes ((y.wire x).drop j) ++ (y.rest x).getD []).take n))
      cut := Function.update y.cut x true }
  | .deliver x =>
    match y.toSystem.next (.deliver x) with
    | none => none
    | some y' =>
      some { y with
        toSystem := y'
        decoded := Function.update y.decoded x (y.decoded x ++ (y.wire x.other).take 1) }
  | .decode x cuts =>
    match (y.sess x).next (.recv (y.reads x cuts).1) with
    | none => none
    | some s =>
      some { y with
        sess := Function.update y.sess x s
        wire := Function.update y.wire x.other []
        rest := Function.update y.rest x.other (some (y.reads x cuts).2.stream) }
  | .fail x e =>
    match (y.sess x).next (.recv (.error (.read e))) with
    | none => none
    | some s => some { y with sess := Function.update y.sess x s }

/-! ## What a step does -/

/-- A step, with the steps of the sessions in it. -/
inductive Moves (y : Cuttable) : Act → Cuttable → Prop where
  | app {x : Side} {a : Session.Act} {s : Session} {out : List Packet} (ha : needsNone a = true)
      (hs : (y.sess x).next a = some s) (ht : Session.Trans (y.sess x) a s out) :
      Moves y (.app x a) (y.encode x s out (failsWrite a))
  | «break» (x : Side) (j n : Nat) :
      Moves y (.break x j n)
        { y with
          wire := Function.update y.wire x ((y.wire x).take j)
          rest := Function.update y.rest x
            (some ((bytes ((y.wire x).drop j) ++ (y.rest x).getD []).take n))
          cut := Function.update y.cut x true }
  | deliver {x : Side} {p : Packet} {ps : List Packet} {s : Session} (hw : y.wire x.other = p :: ps)
      (hs : (y.sess x).next (.recv (.ok p.msg)) = some s)
      (ht : Session.Trans (y.sess x) (.recv (.ok p.msg)) s [])
      (hm : System.Moves y.toSystem (.deliver x)
        { sess := Function.update y.sess x s
          wire := Function.update y.wire x.other ps
          peer := y.paired x p s }) :
      Moves y (.deliver x)
        { y with
          sess := Function.update y.sess x s
          wire := Function.update y.wire x.other ps
          peer := y.paired x p s
          decoded := Function.update y.decoded x (y.decoded x ++ [p]) }
  | decode {x : Side} {cuts : Nat → Nat} {s : Session}
      (hs : (y.sess x).next (.recv (y.reads x cuts).1) = some s)
      (ht : Session.Trans (y.sess x) (.recv (y.reads x cuts).1) s []) :
      Moves y (.decode x cuts)
        { y with
          sess := Function.update y.sess x s
          wire := Function.update y.wire x.other []
          rest := Function.update y.rest x.other (some (y.reads x cuts).2.stream) }
  | fail {x : Side} {e : ReadError} {s : Session}
      (hs : (y.sess x).next (.recv (.error (.read e))) = some s)
      (ht : Session.Trans (y.sess x) (.recv (.error (.read e))) s []) :
      Moves y (.fail x e) { y with sess := Function.update y.sess x s }

variable {y y' : Cuttable} {a : Act} {x : Side} {c : Nat}

theorem trans_recv {s s' : Session} {r : Except DecodeError Message}
    (h : s.next (.recv r) = some s') : Session.Trans s (.recv r) s' [] := by
  obtain ⟨out, ht⟩ := Session.exists_trans h
  have hout := ht.recv_out
  rwa [hout] at ht

theorem Moves.of_next (h : y.next a = some y') : Moves y a y' := by
  cases a with
  | app x a =>
    simp only [next] at h
    split at h
    · next ha =>
      split at h
      · cases h
      · next s out hs =>
        cases h
        exact .app ha (by rw [Session.next, hs]; rfl) (.of_step hs)
    · cases h
  | «break» x j n =>
    cases h
    exact .break x j n
  | deliver x =>
    simp only [next] at h
    split at h
    · cases h
    · next y₁ hy =>
      cases h
      cases System.Moves.of_next hy with
      | @deliver _ p ps s hw hs ht =>
        rw [hw]
        exact .deliver hw hs ht (.deliver hw hs ht)
  | decode x cuts =>
    simp only [next] at h
    split at h
    · cases h
    · next s hs =>
      cases h
      exact .decode hs (trans_recv hs)
  | fail x e =>
    simp only [next] at h
    split at h
    · cases h
    · next s hs =>
      cases h
      exact .fail hs (trans_recv hs)

/-- At each side a step is a step of the session, or none. -/
theorem Moves.session (h : Moves y a y') (x : Side) : y'.sess x = y.sess x ∨
    ∃ b, (y.sess x).next b = some (y'.sess x) ∧ (a = .app x b ∨ ∃ r, b = .recv r) := by
  have key : ∀ {z : Side} {b : Session.Act} {s : Session}, (y.sess z).next b = some s →
      (a = .app z b ∨ ∃ r, b = .recv r) → y'.sess = Function.update y.sess z s →
      y'.sess x = y.sess x ∨
        ∃ b, (y.sess x).next b = some (y'.sess x) ∧ (a = .app x b ∨ ∃ r, b = .recv r) := by
    intro z b s hs hb hy
    rw [hy]
    by_cases hx : x = z
    · subst hx
      exact .inr ⟨b, by rwa [Function.update_self], hb⟩
    · exact .inl (Function.update_of_ne hx _ _)
  cases h with
  | app _ hs => exact key hs (.inl rfl) rfl
  | «break» => exact .inl rfl
  | deliver _ hs => exact key hs (.inr ⟨_, rfl⟩) rfl
  | decode hs => exact key hs (.inr ⟨_, rfl⟩) rfl
  | fail hs => exact key hs (.inr ⟨_, rfl⟩) rfl

/-- Each side of a run is a run of its session. -/
theorem session_run {okY : Cuttable → Act → Prop} {okS : Session → Session.Act → Prop}
    (happ : ∀ y x a, okY y (.app x a) → okS (y.sess x) a) (hrecv : ∀ s r, okS s (.recv r))
    (run : Run next okY start y) (x : Side) : Run Session.next okS newSession (y.sess x) := by
  induction run with
  | start => exact .start
  | step a hr hok hn ih =>
    rcases (Moves.of_next hn).session x with hs | ⟨b, hs, rfl | ⟨r, rfl⟩⟩
    · rw [hs]
      exact ih
    · exact .step b ih (happ _ _ _ hok) hs
    · exact .step _ ih (hrecv _ _) hs

theorem any_run {ok : Cuttable → Act → Prop} (run : Run next ok start y) (x : Side) :
    Run Session.next anyStep newSession (y.sess x) :=
  session_run (fun _ _ _ _ => trivial) (fun _ _ => trivial) run x

/-! ## The end of a stream -/

/-- What a reader can take the end of its stream for. -/
structure ReadsToEnd (y : Cuttable) (x : Side) (c : Nat) : Prop where
  /-- the other side has ended the stream, or the session has ended -/
  cause : ∀ n, (y.chan x c).pending.Read n = .eof → (y.chan x c).handled.any endsStream = true ∨
    (y.sess x).Dropped
  /-- everything that arrived has been read -/
  all : ∀ n, (y.chan x c).pending.Read n = .eof → (y.chan x c).got = dataOf (y.chan x c).handled
  /-- a session that ends first leaves the buffered bytes, and then the end of the stream -/
  dropped : (y.sess x).Finished → ¬ (y.sess x).Listed c →
    (y.chan x c).handled.any Message.isFailure = false → ∀ n, 0 < n →
      if (y.chan x c).pending.content = [] then (y.chan x c).pending.Read n = .eof
      else ∃ b, (y.chan x c).pending.Read n = .bytes ((y.chan x c).pending.content.take n) b ∧
        b.content = (y.chan x c).pending.content.drop n ∧ b.closed = true

theorem ReadsToEnd.of_run {ok : Cuttable → Act → Prop} (run : Run next ok start y)
    (hc : c < (y.sess x).fresh) : y.ReadsToEnd x c := by
  have hrun := any_run run x
  have hread : dataOf (y.chan x c).handled = (y.chan x c).got ++ (y.chan x c).pending.content :=
    (Session.accounts hrun c hc).streamed
  refine ⟨fun n hn => ?_, fun n hn => ?_, fun hfin hl hf n hn => ?_⟩
  · rcases (Session.endsOfStream hrun c hc).closed (Buffer.Read_eof hn).2 with he | hcl | hd
    · obtain ⟨m, hin, hm⟩ := List.any_eq_true.mp he
      exact .inl (List.any_eq_true.mpr ⟨m, hin, by rw [endsStream, hm, Bool.true_or]⟩)
    · obtain ⟨m, hin, hm⟩ := List.any_eq_true.mp hcl
      exact .inl (List.any_eq_true.mpr ⟨m, hin, by rw [endsStream, hm, Bool.or_true]⟩)
    · exact .inr hd
  · rw [hread, (Buffer.Read_eof hn).1, List.append_nil]
  · have hclosed : (y.chan x c).pending.closed = true := by
      refine ((Session.lives hrun c hc).wound hl hf).eof.resolve_left fun hin => ?_
      rw [hfin.2] at hin
      cases hin
    split
    · next hcont => rw [Buffer.Read_empty hn hcont, if_pos hclosed]
    · next hcont =>
      obtain ⟨b, h1, h2, h3⟩ := Buffer.Read_pos hn hcont
      exact ⟨b, h1, h2, h3.trans hclosed⟩

end Cuttable

end Qtalk.Mux
