import Qtalk.Codec.Total
import Qtalk.Mux.Loop

/-!
# A session on a connection

The session loop reads its packets from a connection with `Decode`. Nothing is assumed of
the connection: it may deliver any bytes, cut them in any way and fail at any time. The
loop never panics.
-/

namespace Qtalk.Mux
open Qtalk.Codec Qtalk.Lib

variable {σ : Type}

/-- A session and the state of the connection it reads from. -/
structure Served (σ : Type) where
  conn : σ
  sess : Session

namespace Served

inductive Act where
  /-- a step of the session that reads nothing -/
  | sess (a : Session.Act)
  /-- `onePacket` decodes a packet and goes on with it -/
  | onePacket

/-- The connection and session after a step. -/
def next (r : Reader σ) (v : Served σ) : Act → Option (Served σ)
  | .sess (.recv _) => none
  | .sess a => do return { v with sess := ← v.sess.next a }
  | .onePacket =>
    let res := Decode r v.conn
    do return { conn := res.2, sess := ← v.sess.next (.recv res.1) }

/-- How often `close()` of a channel has got to `close(c.msg)`, or will. -/
def closes (v : Served σ) (c : Nat) : Nat :=
  v.sess.ops.count (.closeMsg c) + (v.sess.heap c).msgClosed.toNat

/-- `recv` stands for any result `Decode` can have. -/
theorem decoded (r : Reader σ) (s : σ) : Session.Decoded (Decode r s).1 := by
  rcases Decode_total r s with ⟨e, he, -⟩ | ⟨m, hm, hw⟩
  · rw [he]; trivial
  · rw [hm]
    cases m with
    | data m => exact Nat.lt_of_le_of_lt (Nat.le_of_eq (Eq.symm hw)) m.length.toNat_lt
    | _ => trivial

end Served

namespace Session

variable {s s' : Session}

/-- Only a slice out of range in the decoder makes the loop panic. -/
theorem Inv.fault_eq (h : s.Inv) {a : Act} {out : List Packet} (ht : Trans s a s' out)
    (ha : a ≠ .recv (.error .outOfRange)) : s'.fault = s.fault := by
  cases ht
  case outOfRange => exact absurd rfl ha
  case queueClosed c m ops ok ho hc => simp [(h.ops (.queue c m) (by simp [ho])).2.2] at hc
  case closeMsgTwice c ops ok ho hc => simp [(h.ops (.closeMsg c) (by simp [ho])).2] at hc
  all_goals rfl

/-- A channel is closed at most once, counting what is in hand. -/
theorem Inv.closeMsg_once (h : s.Inv) (c : Nat) :
    s.ops.count (.closeMsg c) + (s.heap c).msgClosed.toNat ≤ 1 := by
  by_cases hin : .closeMsg c ∈ s.ops
  · have hmc := (h.ops _ hin).2
    have hle : s.ops.count (.closeMsg c) ≤ 1 := by
      by_contra hlt
      have hsub := List.replicate_sublist_iff.mpr (Nat.lt_of_not_le hlt)
      exact List.pairwise_pair.mp (h.order.sublist hsub) rfl
    simpa [hmc] using hle
  · rw [List.count_eq_zero_of_not_mem hin, Nat.zero_add]
    exact Bool.toNat_le _

end Session

/-- What no peer can bring about. -/
structure Sound (s : Session) : Prop where
  /-- no panic: no slice out of range, no failed type assertion, no second close of a
  message queue, no send on a closed one -/
  fault : s.fault = none
  /-- `close()` runs at most once on each channel -/
  once : ∀ c, s.ops.count (.closeMsg c) + (s.heap c).msgClosed.toNat ≤ 1
  /-- the channel a message is handed to is listed under its own id and not closed -/
  handed : ∀ id c, s.chanList.getChan id = some c →
    c < s.fresh ∧ (s.heap c).localId = id ∧ (s.heap c).msgClosed = false
  /-- nor is the one `msg <- m` will send to -/
  queued : ∀ c m, .queue c m ∈ s.ops → (s.heap c).msgClosed = false

theorem Session.Inv.sound {s : Session} (h : s.Inv) (hf : s.fault = none) : Sound s where
  fault := hf
  once := h.closeMsg_once
  handed id c hg := by
    rw [ChanList.getChan_eq h.short] at hg
    obtain ⟨h1, h2, h3⟩ := h.listed _ c hg
    exact ⟨h1, UInt32.toNat_inj.mp h2, h3⟩
  queued c m hin := (h.ops _ hin).2.2

/-- The session loop never panics, whatever bytes arrive in whatever pieces. -/
theorem Served.never_panics {r : Reader σ} {conn : σ} {v : Served σ}
    (run : Run (next r) anyStep ⟨conn, newSession⟩ v) : Sound v.sess := by
  have key : v.sess.Inv ∧ v.sess.fault = none := by
    refine Run.invariant (I := fun v => v.sess.Inv ∧ v.sess.fault = none) ⟨.start, rfl⟩
      (fun v a v' _ ⟨hi, hf⟩ _ hn => ?_) run
    have keep : ∀ b s', v.sess.next b = some s' → b ≠ .recv (.error .outOfRange) →
        s'.Inv ∧ s'.fault = none := by
      intro b s' hs hb
      obtain ⟨out, ht⟩ := Session.exists_trans hs
      exact ⟨hi.step ht, (hi.fault_eq ht hb).trans hf⟩
    cases a with
    | sess b =>
      cases b with
      | recv r => cases hn
      | _ =>
        obtain ⟨s', hs, hv⟩ := Option.bind_eq_some_iff.mp hn
        cases hv
        exact keep _ s' hs nofun
    | onePacket =>
      obtain ⟨s', hs, hv⟩ := Option.bind_eq_some_iff.mp hn
      cases hv
      refine keep _ s' hs fun heq => ?_
      -- the decoder sizes its buffers by the numbers it slices with
      have hres := Session.Act.recv.inj heq
      rcases Decode_total r v.conn with ⟨e, he, hne⟩ | ⟨m, hm, -⟩
      · rw [he] at hres
        exact hne (Except.error.inj hres)
      · rw [hm] at hres
        cases hres
  exact key.1.sound key.2

/-- A peer opens a channel and closes it twice, before the application has seen it; the
second `CloseMessage` ends the loop. -/
theorem Served.never_panics_run : ∃ v : Served Cut,
    v.sess.err = some (.invalidChannel 0) ∧ (v.sess.heap 0).msgClosed = true ∧ Sound v.sess := by
  let bytes := marshal (.openMsg ⟨0, 8, 16⟩) ++ marshal (.close ⟨0⟩) ++ marshal (.close ⟨0⟩)
  let acts := [Act.onePacket, .sess (.loop true), .sess (.loop true)] ++
    .onePacket :: List.replicate 6 (.sess (.loop true)) ++
    .onePacket :: List.replicate 4 (.sess (.loop false))
  obtain ⟨v, hv, hp⟩ := Run.of_exec (next cutReader) anyStep ⟨⟨bytes, fun _ => 16⟩, newSession⟩ acts
    (fun v => v.sess.err = some (.invalidChannel 0) ∧ (v.sess.heap 0).msgClosed = true)
    (by decide +kernel)
  simp only [decide_eq_true_eq] at hp
  exact ⟨v, hp.1, hp.2, never_panics hv⟩

end Qtalk.Mux
