import Qtalk.Mux.Silence

/-!
# One writer

A channel that one goroutine writes to, which finishes before it closes. What it has sent
is what its `Write` calls count, in order, and its end follows all of it.
-/

namespace Qtalk.Mux
open Qtalk.Codec Qtalk.Lib

theorem eq_singleton {α : Type} {l : List α} {k : Nat} {w : α} (hl : l.length ≤ 1)
    (hk : l[k]? = some w) : l = [w] ∧ k = 0 := by
  match l, k with
  | [], _ => cases hk
  | [a], 0 => cases hk; exact ⟨rfl, rfl⟩
  | [a], k + 1 => cases hk
  | _ :: _ :: _, _ => exact absurd hl (by simp)

namespace Channel

/-- The bytes the `Write` calls count as written, the one in progress included. -/
def written (ch : Channel) : List UInt8 := ch.wrote.flatten ++ ch.writes.flatMap WriteCall.done

/-- One writer at a time, who finishes its `Write` before it calls `CloseWrite` or `Close`
and does not write after `Close`. -/
def OneWriter (ch : Channel) : Step → Prop
  | .write _ => ch.writes = [] ∧ ch.sent.any Message.isClose = false
  | .closeWrite | .close => ch.writes = []
  | _ => True

/-- The reader does not call `Close` before the end of the data has reached it. -/
def Patient (ch : Channel) : Step → Prop
  | .close => ch.handled.any Message.isEOF = true ∨ ch.handled.any Message.isClose = true
  | _ => True

instance (ch : Channel) (a : Step) : Decidable (ch.OneWriter a) := by
  unfold OneWriter; split <;> infer_instance

instance (ch : Channel) (a : Step) : Decidable (ch.Patient a) := by
  unfold Patient; split <;> infer_instance

structure Written (ch : Channel) : Prop where
  one : ch.writes.length ≤ 1
  data : dataOf ch.sent = ch.written
  /-- the calls of `CloseWrite` have set `sentEOF`, after the last `Write` -/
  shut : ch.closeWrites ≠ 0 ∨ ch.sent.any Message.isEOF = true → ch.sentEOF = true
  finished : ch.sentEOF = true ∨ ch.sent.any Message.isClose = true → ch.writes = []
  silent : EOFSilent ch.sent

theorem Written.quiet {ch ch' : Channel} (h : ch.Written) (hs : ch'.sent = ch.sent)
    (hone : ch'.writes.length ≤ 1) (hdata : ch'.written = ch.written)
    (hcw : ch'.closeWrites ≠ 0 → ch'.sentEOF = true ∨ ch.closeWrites ≠ 0)
    (heof : ch.sentEOF = true → ch'.sentEOF = true)
    (hfin : ch'.sentEOF = true ∨ ch.sent.any Message.isClose = true → ch'.writes = []) :
    (ch'.sends []).Written := by
  rw [sends_nil]
  refine ⟨hone, by rw [hs, hdata, h.data], fun hc => ?_, by rwa [hs], hs ▸ h.silent⟩
  rw [hs] at hc
  rcases hc with hc | hc
  · exact (hcw hc).elim id fun hc => heof (h.shut (.inl hc))
  · exact heof (h.shut (.inr hc))

/-- A change that sends a message without data. -/
theorem Written.sendsOne {ch ch' : Channel} {m : Message} (h : ch.Written) (hs : ch'.sent = ch.sent)
    (hw : ch'.writes = ch.writes) (hwrote : ch'.wrote = ch.wrote)
    (heof : ch'.sentEOF = ch.sentEOF) (hcw : ch'.closeWrites ≠ 0 → ch.closeWrites ≠ 0)
    (hm : m.isData = false) (hend : m.isEOF = true → ch.sentEOF = true)
    (hcl : m.isClose = true → ch.writes = []) : (ch'.sends [m]).Written := by
  have hbytes : body m = [] := by
    cases m with
    | data => cases hm
    | _ => rfl
  refine ⟨hw ▸ h.one, ?_, fun hc => ?_, fun hc => ?_, ?_⟩
  · simp [sends, written, hs, hw, hwrote, hbytes, h.data]
  · simp only [sends, hs, heof, List.any_append, List.any_cons, List.any_nil, Bool.or_false,
      Bool.or_eq_true] at hc ⊢
    rcases hc with hc | hc | hc
    · exact h.shut (.inl (hcw hc))
    · exact h.shut (.inr hc)
    · exact hend hc
  · simp only [sends, hs, heof, hw, List.any_append, List.any_cons, List.any_nil, Bool.or_false,
      Bool.or_eq_true] at hc ⊢
    rcases hc with hc | hc | hc
    · exact h.finished (.inl hc)
    · exact h.finished (.inr hc)
    · exact hcl hc
  · exact pairwise_snoc (hs ▸ h.silent) fun _ _ _ => hm

/-- The channel keeps to it while its sends succeed, and is closed by the loop only after
the writer has finished. -/
theorem Written.move {ch ch' : Channel} {who : Actor} {ms : List Message} (h : ch.Written)
    (hm : Move ch who ms ch') (hok : ∀ a, who = .call a → ch.OneWriter a)
    (hsend : ∀ k, who ≠ .call (.sendData k false))
    (hreply : ∀ c, who = .op (.reply c) → ch.handled.any Message.isClose = true → ch.writes = []) :
    (ch'.sends ms).Written := by
  cases hm with
  | sendOpen | confirm | adjust => exact h.sendsOne rfl rfl rfl rfl id rfl nofun nofun
  | close hs hh => exact h.sendsOne rfl rfl rfl rfl id rfl nofun fun _ => hok _ rfl
  | reply c hs hc => exact h.sendsOne rfl rfl rfl rfl id rfl nofun fun _ => hreply c rfl hc
  | sendEOF hn hs =>
    exact h.sendsOne rfl rfl rfl rfl (fun _ => hn) rfl (fun _ => h.shut (.inl hn)) nofun
  | dropEOF hn hs => exact h.quiet rfl h.one rfl (fun _ => .inr hn) id h.finished
  | closeWrite hh =>
    have hw := hok _ rfl
    exact h.quiet rfl h.one rfl (fun _ => .inl rfl) (fun _ => rfl) fun _ => hw
  | writeEOF data hh =>
    refine h.quiet rfl h.one ?_ .inr id h.finished
    simp [written]
  | write data hh hs =>
    obtain ⟨hw, hcl⟩ := hok _ rfl
    refine h.quiet rfl (by simp [hw]) (by simp [written, hw]) .inr id fun hc => ?_
    rcases hc with hc | hc
    · rw [hs] at hc; cases hc
    · rw [hcl] at hc; cases hc
  | writeDone hk hg hd =>
    obtain ⟨hw, rfl⟩ := eq_singleton h.one hk
    exact h.quiet rfl (by simp [writeReturn, hw]) (by simp [written, writeReturn, hw]) .inr id
      fun _ => by simp [writeReturn, hw]
  | refused hk hg hr hd =>
    obtain ⟨hw, rfl⟩ := eq_singleton h.one hk
    exact h.quiet rfl (by simp [writeReturn, hw]) (by simp [written, writeReturn, hw]) .inr id
      fun _ => by simp [writeReturn, hw]
  | granted hk hg hr hd =>
    obtain ⟨hw, rfl⟩ := eq_singleton h.one hk
    refine h.quiet rfl (by simp [hw]) (by simp [written, hw]) .inr id fun hc => ?_
    rw [h.finished hc] at hw
    cases hw
  | @sendData k w g hk hg =>
    obtain ⟨hw, rfl⟩ := eq_singleton h.one hk
    have hopen : ¬ (ch.sentEOF = true ∨ ch.sent.any Message.isClose = true) := fun hc => by
      rw [h.finished hc] at hw
      cases hw
    have hno : ch.sent.any Message.isEOF = false := by
      by_contra hc
      exact hopen (.inl (h.shut (.inr (by simpa using hc))))
    refine ⟨by simp [sends, hw], ?_, fun hc => ?_, fun hc => ?_, ?_⟩
    · simp only [sends, written, dataOf_append, h.data, hw]
      simp [dataMessage, body]
    · refine h.shut (hc.imp id fun hc => ?_)
      simpa [sends, dataMessage, Message.isEOF] using hc
    · refine absurd (hc.imp id fun hc => ?_) hopen
      simpa [sends, dataMessage, Message.isClose] using hc
    · exact pairwise_snoc h.silent fun m' hm' heof => absurd heof (any_false hno m' hm')
  | sendFailed => exact absurd rfl (hsend _)
  | _ => exact h.quiet rfl h.one rfl .inr id h.finished

end Channel

end Qtalk.Mux
