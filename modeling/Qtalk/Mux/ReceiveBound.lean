import Qtalk.Lib.Calls
import Qtalk.Mux.Changes

/-!
# The receive window

Every byte of the window a channel was created with is in one of three places: in
`myWindow`, unread in `pending`, or taken by a `Read` that has not yet given it back.
No peer can change that, so the buffer stays bounded by the window.
-/

namespace Qtalk.Mux
open Qtalk.Codec Qtalk.Lib

namespace ReadCall

/-- The bytes a `Read` has taken and not yet added to `myWindow`. -/
def uncredited : ReadCall → Nat
  | .took n => n.toNat
  | .credited _ => 0

end ReadCall

namespace Channel

/-- The three places add up to the initial window. -/
def Accounted (ch : Channel) : Prop :=
  ch.myWindow.toNat + ch.pending.content.length + total ReadCall.uncredited ch.reads
    = channelWindowSize.toNat

theorem Accounted.move {ch ch' : Channel} {who : Actor} {ms : List Message} (h : Accounted ch)
    (hm : Move ch who ms ch') : Accounted (ch'.sends ms) := by
  have hsize : channelWindowSize.toNat = 2097152 := rfl
  unfold Accounted at h
  cases hm with
  | @readNone b n hh hr =>
    obtain ⟨hc, -, -⟩ := Buffer.Read_bytes hr
    simpa [Accounted, sends, hc] using h
  | @read bs b n hh hr hne =>
    obtain ⟨hc, -, -⟩ := Buffer.Read_bytes hr
    rw [hc, List.length_append] at h
    have hn : (UInt32.ofNat bs.length).toNat = bs.length := by
      rw [UInt32.toNat_ofNat']
      exact Nat.mod_eq_of_lt (by omega)
    simp only [Accounted, sends, total_append, total_cons, total_nil, ReadCall.uncredited, hn]
    omega
  | @credit k n hk =>
    have hset := total_set (f := ReadCall.uncredited) (b := .credited n) hk
    simp only [ReadCall.uncredited] at hset
    have hadd : (ch.myWindow + n).toNat = ch.myWindow.toNat + n.toNat := by
      rw [UInt32.toNat_add]
      exact Nat.mod_eq_of_lt (by omega)
    simp only [Accounted, sends, hadd]
    omega
  | @adjust k n hk hs =>
    have herase := total_eraseIdx (f := ReadCall.uncredited) hk
    simp only [ReadCall.uncredited] at herase
    simp only [Accounted, sends]
    omega
  | @dropAdjust k n hk hs =>
    have herase := total_eraseIdx (f := ReadCall.uncredited) hk
    simp only [ReadCall.uncredited] at herase
    simp only [Accounted, sends]
    omega
  | @gotData m hf h1 h2 h3 =>
    have hlen : m.length.toNat = m.data.length := by
      rw [h2, UInt32.toNat_ofNat']
      exact Nat.mod_eq_of_lt hf
    have hsub := UInt32.toNat_sub_of_le _ _ (UInt32.le_iff_toNat_le.mpr h3)
    simp only [Accounted, sends, Buffer.content_write, List.length_append, hsub]
    omega
  | _ => simpa [Accounted, sends, writeReturn, CloseWrite] using h

theorem accounted_new {ch : Channel} (hw : ch.myWindow = channelWindowSize) (hp : ch.pending = {})
    (hr : ch.reads = []) : Accounted ch := by
  simp [Accounted, hw, hp, hr, Buffer.content]

end Channel

namespace Session

variable {s : Session}

theorem accounted {ok : Session → Act → Prop} (run : Run next ok newSession s) :
    ∀ c < s.fresh, (s.heap c).Accounted :=
  channel_invariant (fun _ => Channel.accounted_new rfl rfl rfl)
    (fun _ _ => Channel.accounted_new rfl rfl rfl)
    (fun _ _ _ _ _ _ _ _ _ _ h hm => h.move hm) run

/-- In every run, whatever the peer sends: the window is accounted for, neither part of it
exceeds the whole, and a data message that is rejected changes no channel. -/
theorem receive_bound (run : Run next anyStep newSession s) :
    (∀ c < s.fresh, (s.heap c).Accounted ∧
      (s.heap c).myWindow.toNat ≤ channelWindowSize.toNat ∧
      (s.heap c).pending.content.length ≤ channelWindowSize.toNat) ∧
    ∀ m c e s', s.chanList.getChan m.channelID = some c → (s.heap c).handleData m = .error e →
      s.next (.recv (.ok (.data m))) = some s' → s'.heap = s.heap := by
  refine ⟨fun c hc => ?_, fun m c e s' hg he hn => ?_⟩
  · have h := accounted run c hc
    refine ⟨h, ?_, ?_⟩ <;>
    · unfold Channel.Accounted at h
      omega
  · obtain ⟨out, ht⟩ := exists_trans hn
    cases ht with
    | unknown _ _ _ _ => rfl
    | refuse _ _ _ _ _ => rfl
    | @handle _ c' ch ops _ _ _ _ hg' hh =>
      have hcc : c' = c := Option.some.inj (hg'.symm.trans hg)
      subst hcc
      simp only [Channel.handle, he] at hh
      cases hh

/-- Data behind the end of the stream, a `Read` that has given its window back and one that has
not. -/
theorem receive_bound_run : ∃ s : Session, (s.heap 0).pending.closed = true ∧
    (s.heap 0).pending.content = [5] ∧ (s.heap 0).reads = [.credited 2, .took 2] ∧
    (s.heap 0).myWindow = 2097149 ∧ (s.heap 0).Accounted := by
  let data (bs : List UInt8) : Message := .data ⟨0, UInt32.ofNat bs.length, bs⟩
  obtain ⟨s, hs, hp⟩ := Run.of_exec next anyStep newSession
    [.recv (.ok (.openMsg ⟨7, 100, 32768⟩)), .loop true, .loop true, .accept,
      .recv (.ok (data [1, 2, 3])), .recv (.ok (.eof ⟨0⟩)), .recv (.ok (data [4, 5])),
      .call 0 (.read 2), .call 0 (.credit 0), .call 0 (.read 2)]
    (fun s => s.fresh = 1 ∧ (s.heap 0).pending.closed = true ∧
      (s.heap 0).pending.content = [5] ∧ (s.heap 0).reads = [.credited 2, .took 2] ∧
      (s.heap 0).myWindow = 2097149)
    (by decide +kernel)
  simp only [decide_eq_true_eq] at hp
  obtain ⟨hf, hcl, hco, hre, hwin⟩ := hp
  exact ⟨s, hcl, hco, hre, hwin, ((receive_bound hs).1 0 (by omega)).1⟩

end Session

end Qtalk.Mux
