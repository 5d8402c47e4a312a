import Qtalk.Mux.Writer
import Qtalk.System.Routing

/-!
# The byte stream of a channel

One writer at one end, a reader at the other: what is read is a prefix of what was
written, and all of it when the reader comes to the end. It takes that no channel of the
two sessions lets data follow its `CloseMessage`: the data could reach another channel,
which has got the id.
-/

namespace Qtalk.Mux
open Qtalk.Codec Qtalk.Lib

theorem dataOf_mono {l l' : List Message} (h : l <+: l') : dataOf l <+: dataOf l' := by
  obtain ⟨t, rfl⟩ := h
  rw [dataOf_append]
  exact List.prefix_append _ _

theorem dataOf_eq_nil {l : List Message} (h : ∀ m ∈ l, m.isData = false) : dataOf l = [] := by
  rw [dataOf, List.flatMap_eq_nil_iff]
  intro m hm
  have := h m hm
  cases m with
  | data => cases this
  | _ => rfl

namespace System

variable {y y' : System} {a : Act} {x : Side} {c d : Nat}

/-- Channel `c` of side `x` has one writer, and its peer's reader is patient. -/
def Streaming (x : Side) (c : Nat) (y : System) : Act → Prop
  | .app z (.call e b) =>
    (z = x ∧ e = c → (y.chan z e).OneWriter b) ∧
      (z = x.other ∧ y.peer x c = some e → (y.chan z e).Patient b)
  | _ => True

instance (x : Side) (c : Nat) (y : System) (a : Act) : Decidable (Streaming x c y a) := by
  unfold Streaming; split <;> infer_instance

/-- What the reader of the peer can rely on. -/
structure Streamed (y : System) (x : Side) (c d : Nat) : Prop where
  /-- what was read was written, in order -/
  pre : (y.chan x.other d).got <+: (y.chan x c).written
  /-- where `Read` comes to the end, all was read and every `Write` has returned -/
  all : ∀ n, (y.chan x.other d).pending.Read n = .eof →
    (y.chan x.other d).handled.any Message.isEOF = true ∨
      (y.chan x.other d).handled.any Message.isClose = true →
    (y.chan x.other d).got = (y.chan x c).wrote.flatten

/-- The end of the data reached channel `d` before it was closed. -/
def EndedFirst (ch : Channel) : Prop :=
  ch.sent.any Message.isClose = true →
    ch.handled.any Message.isEOF = true ∨ ch.handled.any Message.isClose = true

/-- The connected ends of a stream. -/
structure Stream (y : System) (x : Side) (c : Nat) : Prop where
  written : c < (y.sess x).fresh → (y.chan x c).Written
  ended : ∀ d, y.peer x c = some d → EndedFirst (y.chan x.other d)

theorem written_outbound (id : UInt32) : (Session.outboundChannel id).Written :=
  ⟨Nat.zero_le _, rfl, by simp [Session.outboundChannel], fun _ => rfl, .nil⟩

theorem written_inbound (m : OpenMessage) (id : UInt32) : (Session.inboundChannel m id).Written :=
  ⟨Nat.zero_le _, rfl, by simp [Session.inboundChannel], fun _ => rfl, .nil⟩

/-- When the loop answers a `CloseMessage`, the writer has finished. -/
theorem Stream.finished (run : Run next Considerate start y) (h : Stream y x c)
    (hc : c < (y.sess x).fresh) (hcl : (y.chan x c).handled.any Message.isClose = true) :
    (y.chan x c).writes = [] := by
  have hr := Routed.of_run run
  have hwr := h.written hc
  obtain ⟨d, hp, hsent⟩ := hr.closed_of_handled run hc hcl
  have hj := hr.joined (Wired.of_run run) hp
  rcases h.ended d hp hsent with he | he
  · obtain ⟨m, hin, hm'⟩ := List.any_eq_true.mp he
    exact hwr.finished (.inl (hwr.shut (.inr (List.any_eq_true.mpr
      ⟨m, hj.handled_peer.subset hin, hm'⟩))))
  · obtain ⟨m, hin, hm'⟩ := List.any_eq_true.mp he
    exact hwr.finished (.inr (List.any_eq_true.mpr ⟨m, hj.handled_peer.subset hin, hm'⟩))

/-- A channel that gets its peer has no closed peer. -/
theorem new_unclosed (run : Run next Considerate start y) (hm : Moves y a y')
    (hn : y.peer x c = none) (hp : y'.peer x c = some d) :
    (y'.chan x.other d).sent.any Message.isClose = false := by
  have hw := Wired.of_run run
  rcases hm.pairs fun x p => hw.src_ne_none x with
    ⟨hp', -, -⟩ | @⟨z, p, ps, m, id, c', ha, hwire, hmsg, hs, hf, ho, hnew, hp'⟩
  · rw [hp', hn] at hp
    cases hp
  · rw [hp'] at hp
    split at hp
    · next heq =>
      obtain ⟨rfl, rfl⟩ := heq
      cases hp
      obtain ⟨hc, hdir, hnone, -⟩ := hw.opener run hwire hmsg hs
      have hal := ((Routed.of_run run).fifo _ _ hc hdir).alone hnone
      rw [chan, ho, List.any_eq_false]
      intro m' hin hcl
      obtain ⟨m'', rfl⟩ := hal.isOpen run hc hdir (by rw [hal.flow]; exact hin)
      cases hcl
    · split at hp
      · next heq =>
        obtain ⟨rfl, rfl⟩ := heq
        cases hp
        rw [Side.other_other, hnew]
        rfl
      · rw [hn] at hp
        cases hp

section Step

variable (run : Run next Considerate start y) (h : Stream y x c) (hm : Moves y a y')
  (hok : Streaming x c y a)

include run h hm hok

theorem Stream.written_step (hc : c < (y'.sess x).fresh) : (y'.chan x c).Written := by
  obtain ⟨out, -, hat⟩ := hm.side x
  rcases Nat.lt_or_ge c (y.sess x).fresh with hlt | hge
  · have hwr := h.written hlt
    rcases hat.changes (inv run x) hlt with heq | ⟨b, hch, hb⟩
    · rw [heq]; exact hwr
    · cases hch with
      | none hh _ => rw [chan, hh]; exact hwr
      | move hby hmove hh _ =>
        rw [chan, hh]
        refine hwr.move hmove (fun b' hwho => ?_) (fun k hwho => ?_) fun c' hwho hcl => ?_
        · subst hwho
          cases hby
          obtain rfl := hb.resolve_right (by simp)
          exact hok.1 ⟨rfl, rfl⟩
        · subst hwho
          cases hby
          obtain rfl := hb.resolve_right (by simp)
          -- a send fails only on a closed connection
          have hrel : reliable (y.sess x) (.call c (.sendData k false)) = true := by
            cases hm with
            | app ha => exact ha
          rw [reliable, (Routed.of_run run).connected x] at hrel
          cases hrel
        · exact h.finished run hlt hcl
  · rcases hat.new hge hc with ⟨id, hid⟩ | ⟨m, id, hid⟩ <;> rw [hid]
    · exact written_outbound id
    · exact written_inbound m id

theorem Stream.ended_step (hp : y'.peer x c = some d) : EndedFirst (y'.chan x.other d) := by
  have hw := Wired.of_run run
  intro hcl
  cases hp' : y.peer x c with
  | none =>
    rw [new_unclosed run hm hp' hp] at hcl
    cases hcl
  | some d' =>
    obtain rfl : d = d' := Option.some.inj (hp.symm.trans (hw.peer_keep run hm hp'))
    have hd := (hw.lt x c d hp').2
    obtain ⟨out, -, hat⟩ := hm.side x.other
    have hext := hat.extends (inv run x.other) hd
    have hold : (y.chan x.other d).handled.any Message.isEOF = true ∨
        (y.chan x.other d).handled.any Message.isClose = true := by
      rcases close_step run hm hd hcl with hs | rfl | hh
      · exact h.ended d hp' hs
      · exact hok.2 ⟨rfl, hp'⟩
      · exact .inr hh
    exact hold.imp hext.any_handled hext.any_handled

end Step

theorem Stream.of_run (run : Run next (fun y a => Considerate y a ∧ Streaming x c y a) start y) :
    Stream y x c := by
  refine Run.invariant (I := fun y => Stream y x c)
    ⟨fun hc => absurd hc (Nat.not_lt_zero c), by simp [start]⟩ (fun y a y' hr h hok hn => ?_) run
  have hr' : Run next Considerate start y := hr.weaken fun _ _ h => h.1
  have hm := Moves.of_next hn
  exact ⟨fun hc => h.written_step hr' hm hok.2 hc, fun d hp => h.ended_step hr' hm hok.2 hp⟩

/-- What is read was written, in order, and all of it when the reader comes to the end. -/
theorem stream_delivered (run : Run next (fun y a => Considerate y a ∧ Streaming x c y a) start y)
    (hp : y.peer x c = some d) : Streamed y x c d := by
  have run' : Run next Considerate start y := run.weaken fun _ _ h => h.1
  have h := Stream.of_run run
  have hj := (Routed.of_run run').joined (Wired.of_run run') hp
  obtain ⟨hc, hd⟩ := hj.fresh run'
  have hwr := h.written hc
  have hread : dataOf (y.chan x.other d).handled =
      (y.chan x.other d).got ++ (y.chan x.other d).pending.content := (accounts run' hd).streamed
  refine ⟨?_, fun n hn hend => ?_⟩
  · rw [← hwr.data]
    refine List.IsPrefix.trans ?_ (dataOf_mono hj.handled_peer)
    rw [hread]
    exact List.prefix_append _ _
  · have hsent := hj.there
    -- nothing with data is behind what ended the stream
    have hflow : dataOf (y.flow x c) = [] := by
      refine dataOf_eq_nil fun m hm => ?_
      rcases hend with he | he
      · obtain ⟨m', hin, hm'⟩ := List.any_eq_true.mp he
        have := hwr.silent
        rw [EOFSilent, ← hsent, List.pairwise_append] at this
        exact this.2.2 m' hin m hm hm'
      · obtain ⟨m', hin, hm'⟩ := List.any_eq_true.mp he
        have := (closesLast run' hc).silent
        rw [ClosedSilent, ← hsent, List.pairwise_append] at this
        have hch := this.2.2 m' hin m hm hm'
        cases m with
        | data => cases hch
        | _ => rfl
    have hwrites : (y.chan x c).writes = [] := by
      rcases hend with he | he
      · obtain ⟨m', hin, hm'⟩ := List.any_eq_true.mp he
        exact hwr.finished (.inl (hwr.shut (.inr (List.any_eq_true.mpr
          ⟨m', hj.handled_peer.subset hin, hm'⟩))))
      · obtain ⟨m', hin, hm'⟩ := List.any_eq_true.mp he
        exact hwr.finished (.inr (List.any_eq_true.mpr ⟨m', hj.handled_peer.subset hin, hm'⟩))
    have hcont := (Buffer.Read_eof hn).1
    calc (y.chan x.other d).got
        = dataOf (y.chan x.other d).handled := by rw [hread, hcont, List.append_nil]
      _ = dataOf (y.chan x c).sent := by rw [← hsent, dataOf_append, hflow, List.append_nil]
      _ = (y.chan x c).wrote.flatten := by
        rw [hwr.data, Channel.written, hwrites, List.flatMap_nil, List.append_nil]

/-- Data in two packets, read in pieces up to the end. -/
theorem stream_delivered_run : ∃ y : System, (y.chan .right 0).got = [1, 2, 3] ∧
    (y.chan .right 0).pending.closed = true ∧ Streamed y .left 0 0 := by
  let loops (x : Side) (n : Nat) := List.replicate n (Act.app x (.loop true))
  obtain ⟨y, hy, hp⟩ := Run.of_exec next (fun y a => Considerate y a ∧ Streaming .left 0 y a) start
    ([.app .left .register, .app .left (.call 0 (.sendOpen true)), .deliver .right] ++
      loops .right 2 ++ [.app .right .accept, .deliver .left] ++ loops .left 1 ++
      [.app .left (.call 0 .opened), .app .left (.call 0 (.write [1, 2])),
        .app .left (.call 0 (.reserve 0)), .app .left (.call 0 (.sendData 0 true)), .deliver .right,
        .app .right (.call 0 (.read 1)), .app .left (.call 0 (.reserve 0)),
        .app .left (.call 0 (.write [3])), .app .left (.call 0 (.reserve 0)),
        .app .left (.call 0 (.sendData 0 true)), .app .left (.call 0 (.reserve 0)),
        .app .left (.call 0 .closeWrite), .app .left (.call 0 .sendEOF), .deliver .right,
        .deliver .right, .app .right (.call 0 (.read 4))])
    (fun y => (y.chan .right 0).got = [1, 2, 3] ∧ (y.chan .right 0).pending.closed = true ∧
      y.peer .left 0 = some 0)
    (by decide +kernel)
  simp only [decide_eq_true_eq] at hp
  exact ⟨y, hp.1, hp.2.1, stream_delivered hy hp.2.2⟩

/-- A `Write` on channel 0 has its grant when the channel is closed. Its id is used again for
channel 1, where the byte is read that nobody wrote. -/
theorem data_of_another : ¬ ∀ x c y,
    Run next (fun y a => UsesConfirmed y a ∧ Streaming x c y a) start y →
    ∀ d, y.peer x c = some d → Streamed y x c d := by
  intro h
  let loops (x : Side) (n : Nat) := List.replicate n (Act.app x (.loop true))
  obtain ⟨y, hy, hp⟩ := Run.of_exec next (fun y a => UsesConfirmed y a ∧ Streaming .left 1 y a) start
    ([.app .left .register, .app .left (.call 0 (.sendOpen true)), .deliver .right] ++
      loops .right 2 ++ [.deliver .left] ++ loops .left 1 ++
      [.app .left (.call 0 .opened), .app .left (.call 0 (.write [9])),
        .app .left (.call 0 (.reserve 0)), .app .left (.call 0 .close), .app .left .register,
        .app .left (.call 1 (.sendOpen true)), .deliver .right] ++ loops .right 6 ++
      [.deliver .right] ++ loops .right 2 ++
      [.app .left (.call 0 (.sendData 0 true)), .deliver .right, .app .right .accept,
        .app .right .accept, .app .right (.call 1 (.read 4))])
    (fun y => y.peer .left 1 = some 1 ∧ (y.chan .right 1).got = [9] ∧
      (y.chan .left 1).written = [])
    (by decide +kernel)
  simp only [decide_eq_true_eq] at hp
  have := (h .left 1 y hy 1 hp.1).pre
  rw [show (y.chan Side.left.other 1).got = [9] from hp.2.1, hp.2.2] at this
  exact absurd this (by decide)

end System

end Qtalk.Mux
