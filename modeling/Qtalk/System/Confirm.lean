import Qtalk.System.Routing

/-!
# The confirmation comes first

`handleOpen` publishes an accepted channel before it encodes the `OpenConfirmMessage`. An
application that waits for the confirmation gets it out first, and the opener hears of
nothing else before; one that does not can be faster than the loop.
-/

namespace Qtalk.Mux
open Qtalk.Codec Qtalk.Lib

/-- The first message to the opener's id is the confirmation. -/
def Channel.OpensWithConfirm (ch : Channel) : Prop :=
  ∃ m rest, ch.handled = .openMsg m :: rest ∧
    ∀ m' ∈ (ch.sent.filter fun m' => m'.channel = (m.senderID, true)).head?,
      m' = .openConfirm ⟨m.senderID, ch.localId, channelWindowSize, channelMaxPacket⟩

theorem Session.opensWithConfirm {s : Session} (run : Run next UsesConfirmed newSession s) {c : Nat}
    (hc : c < s.fresh) (hd : (s.heap c).direction = .inbound) : (s.heap c).OpensWithConfirm := by
  have ha := acceptors run c hc hd
  obtain ⟨m, rest, hh, hid, -⟩ := ha.opened
  refine ⟨m, rest, hh, fun m' hm' => ?_⟩
  have hall : (s.heap c).sent.filter (fun m' => m'.channel = (m.senderID, true)) = (s.heap c).sent :=
    List.filter_eq_self.mpr fun m' hm' => decide_eq_true (by rw [ha.addressed m' hm', hid])
  rw [hall] at hm'
  have hconf := (confirmsFirst run c hc hd).first m' hm'
  cases m' with
  | openConfirm m' =>
    have hin : .openConfirm m' ∈ (s.heap c).sent := List.mem_of_mem_head? hm'
    rw [ha.confirm m' hin, hid]
  | _ => cases hconf

namespace System

variable {y : System} {x : Side} {c d : Nat}

/-- What the opener of channel `c` sees of it. -/
structure HearsConfirm (y : System) (x : Side) (c : Nat) : Prop where
  /-- it learns its remote id before anything else is handled -/
  first : ∀ m ∈ (y.chan x c).handled.head?, m.isConfirm = true
  /-- and closes the channel it was told -/
  closes : ∀ m, .close m ∈ (y.chan x c).sent →
    ∃ d, y.peer x c = some d ∧ m.channelID = (y.chan x.other d).localId

theorem hearsConfirm (run : Run next Considerate start y) (hc : c < (y.sess x).fresh)
    (hd : (y.chan x c).direction = .outbound) : HearsConfirm y x c := by
  have hw := Wired.of_run run
  have hf := (Routed.of_run run).fifo x c hc hd
  cases hp : y.peer x c with
  | none =>
    have hal := hf.alone hp
    refine ⟨by rw [hal.handled]; nofun, fun m hm => ?_⟩
    obtain ⟨m', hm'⟩ := hal.isOpen run hc hd (by rw [hal.flow]; exact hm)
    cases hm'
  | some d =>
    have hj := hf.joined hp
    refine ⟨fun m hm => ?_, fun m hm => ⟨d, hp, ?_⟩⟩
    · have hin : (y.chan x.other d).direction = .inbound := by
        have := (hj.symm hw).inbound_of run
        exact this (by rwa [Side.other_other])
      obtain ⟨rest, hrest⟩ := hj.handled
      refine (confirmsFirst run (hj.fresh run).2 hin).first m ?_
      rw [← hrest]
      obtain ⟨l, hl⟩ := List.head?_eq_some_iff.mp hm
      rw [hl]
      rfl
    · have ho := opener run hc hd
      have := (ho.addressed _ (hj.confirmedAs run) (hj.heralded run hd) _ hm).resolve_left nofun
      exact congrArg Prod.fst this

/-- An acceptor that uses a channel only after its confirmation was encoded says the
confirmation first; the opener, then, knows the remote id before anything comes, and a
confirmation finds the channel it is for. -/
theorem confirmed_before_use (s : Session) (y : System) (x : Side) :
    (Run Session.next Session.UsesConfirmed newSession s →
      ∀ c < s.fresh, (s.heap c).direction = .inbound → (s.heap c).OpensWithConfirm) ∧
    (Run next Considerate start y →
      (∀ c < (y.sess x).fresh, (y.chan x c).direction = .outbound → HearsConfirm y x c) ∧
        ∀ p ∈ y.wire x.other, p.msg.isConfirm = true → ∃ c d, Delivered y x.other p c d) := by
  constructor
  · exact fun run c hc hd => Session.opensWithConfirm run hc hd
  · intro run
    refine ⟨fun c hc hd => hearsConfirm run hc hd, fun p hp hm => ?_⟩
    refine (Routed.of_run run).delivered run hp ?_
    cases hmsg : p.msg with
    | openConfirm m => rfl
    | _ => rw [hmsg] at hm; cases hm

/-- The acceptor writes and closes as soon as it is confirmed; the confirmation, the data and
the `CloseMessage` are in flight. -/
theorem confirmed_before_use_run : ∃ y : System,
    (y.chan .right 0).sent = [.openConfirm ⟨0, 0, 2097152, 32768⟩, .data ⟨0, 1, [5]⟩, .close ⟨0⟩] ∧
      (y.chan .right 0).OpensWithConfirm ∧ HearsConfirm y .left 0 ∧
      ∃ c d, Delivered y .right ⟨some 0, .openConfirm ⟨0, 0, 2097152, 32768⟩⟩ c d := by
  obtain ⟨y, hy, hp⟩ := Run.of_exec next Considerate start
    [.app .left .register, .app .left (.call 0 (.sendOpen true)), .deliver .right,
      .app .right (.loop true), .app .right (.loop true), .app .right .accept,
      .app .right (.call 0 (.write [5])), .app .right (.call 0 (.reserve 0)),
      .app .right (.call 0 (.sendData 0 true)), .app .right (.call 0 (.reserve 0)),
      .app .right (.call 0 .close)]
    (fun y => (y.chan .right 0).sent =
        [.openConfirm ⟨0, 0, 2097152, 32768⟩, .data ⟨0, 1, [5]⟩, .close ⟨0⟩] ∧
      (y.wire .right).head? = some ⟨some 0, .openConfirm ⟨0, 0, 2097152, 32768⟩⟩ ∧
      0 < (y.sess .left).fresh ∧ 0 < (y.sess .right).fresh ∧
      (y.chan .left 0).direction = .outbound ∧ (y.chan .right 0).direction = .inbound)
    (by decide +kernel)
  simp only [decide_eq_true_eq] at hp
  obtain ⟨h1, h2, h3, h4, h5, h6⟩ := hp
  have hs := session_run (fun _ _ _ h => h.2) (fun _ _ => trivial) hy .right
  obtain ⟨h, h'⟩ := (confirmed_before_use (y.sess .right) y .left).2 hy
  exact ⟨y, h1, (confirmed_before_use (y.sess .right) y .left).1 hs 0 h4 h6, h 0 h3 h5,
    h' _ (List.mem_of_mem_head? h2) rfl⟩

/-- A goroutine accepts the channel and writes before the loop gets to the confirmation. -/
theorem data_before_confirm : ¬ ∀ s, Run Session.next anyStep newSession s →
    ∀ c < s.fresh, (s.heap c).direction = .inbound → (s.heap c).OpensWithConfirm := by
  intro h
  obtain ⟨s, hs, hp⟩ := Run.of_exec Session.next anyStep newSession
    [.recv (.ok (.openMsg ⟨7, 100, 32768⟩)), .loop true, .accept, .call 0 (.write [5]),
      .call 0 (.reserve 0), .call 0 (.sendData 0 true), .loop true]
    (fun s => 0 < s.fresh ∧ (s.heap 0).direction = .inbound ∧
      (s.heap 0).handled = [.openMsg ⟨7, 100, 32768⟩] ∧
      (s.heap 0).sent = [.data ⟨7, 1, [5]⟩, .openConfirm ⟨7, 0, 2097152, 32768⟩])
    (by decide +kernel)
  simp only [decide_eq_true_eq] at hp
  obtain ⟨h1, h2, h3, h4⟩ := hp
  obtain ⟨m, rest, hh, hfirst⟩ := h s hs 0 h1 h2
  rw [h3] at hh
  cases hh
  rw [h4] at hfirst
  have := hfirst (.data ⟨7, 1, [5]⟩) rfl
  cases this

end System

end Qtalk.Mux
