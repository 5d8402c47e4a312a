import Qtalk.Mux.History
import Qtalk.Mux.Session

/-!
# What a step can do

`Channel.Move` lists every atomic change of a channel object with its guard, and
`Session.Trans` every step of a session. `Channel.Move.of_step`, `Channel.Move.of_handle`
and `Session.Trans.of_step` say that the lists are complete; later proofs are case
analyses over them and never unfold a step again.
-/

namespace Qtalk.Mux
open Qtalk.Codec

namespace Channel

/-- The data packet of a granted `Write`. -/
def dataMessage (ch : Channel) (bs : List UInt8) : Message :=
  .data { channelID := ch.remoteId, length := UInt32.ofNat bs.length, data := bs }

/-- Who changes a channel: a goroutine inside a call, `Accept`, or the session loop with a
message or with one of its operations. -/
inductive Actor where
  | call (a : Step)
  | accept
  | recv (m : Message)
  | op (o : LoopOp)

/-- An atomic change of a channel object, and the messages handed to the encoder with it.
The guards of the loop's changes say what the loop has done before. -/
inductive Move (ch : Channel) : Actor → List Message → Channel → Prop where
  | idle (a : Step) : Move ch (.call a) [] ch
  -- opening
  | sendOpen (ok : Bool) (h : ch.opening = .registered) :
      Move ch (.call (.sendOpen ok)) [.openMsg ⟨ch.localId, ch.myWindow, channelMaxPacket⟩]
        { ch with
          maxIncomingPayload := channelMaxPacket
          opening := if ok then .waiting else .returned }
  | opened (m : OpenConfirmMessage) (msg : List Message) (h : ch.opening = .waiting)
      (hm : ch.msg = .openConfirm m :: msg) :
      Move ch (.call .opened) [] { ch with msg, opening := .returned, held := true }
  | openFailed (msg : List Message) (h : ch.opening = .waiting)
      (hm : ∀ m ∈ msg, m ∈ ch.msg) : Move ch (.call .opened) [] { ch with msg, opening := .returned }
  | hold (hd : ch.direction = .inbound) : Move ch .accept [] { ch with held := true }
  | confirm (c : Nat) (hd : ch.direction = .inbound) (hn : ch.sent.any Message.isConfirm = false) :
      Move ch (.op (.confirm c)) [ch.confirmMessage] ch
  -- writing
  | writeEOF (data : List UInt8) (h : ch.held = true) : Move ch (.call (.write data)) [] { ch with wrote := ch.wrote ++ [[]] }
  | write (data : List UInt8) (h : ch.held = true) (hs : ch.sentEOF = false) :
      Move ch (.call (.write data)) [] { ch with writes := ch.writes ++ [{ data }] }
  | writeDone {k : Nat} {w : WriteCall} (hk : ch.writes[k]? = some w) (hg : w.granted = none)
      (hd : w.data = []) : Move ch (.call (.reserve k)) [] (ch.writeReturn k w)
  | refused {k : Nat} {w : WriteCall} {g : UInt32} {win : Window}
      (hk : ch.writes[k]? = some w) (hg : w.granted = none)
      (hr : ch.remoteWin.reserve (Mux.min ch.maxRemotePayload w.data.length) = some (g, true, win))
      (hd : w.data ≠ []) :
      Move ch (.call (.reserve k)) []
        ({ ch with remoteWin := win, reserved := ch.reserved + g.toNat }.writeReturn k w)
  | granted {k : Nat} {w : WriteCall} {g : UInt32} {win : Window}
      (hk : ch.writes[k]? = some w) (hg : w.granted = none)
      (hr : ch.remoteWin.reserve (Mux.min ch.maxRemotePayload w.data.length) = some (g, false, win))
      (hd : w.data ≠ []) :
      Move ch (.call (.reserve k)) []
        { ch with
          remoteWin := win
          reserved := ch.reserved + g.toNat
          writes := ch.writes.set k { w with granted := some g } }
  | sendData {k : Nat} {w : WriteCall} {g : UInt32} (hk : ch.writes[k]? = some w)
      (hg : w.granted = some g) :
      Move ch (.call (.sendData k true)) [ch.dataMessage (w.data.take g.toNat)]
        { ch with
          writes := ch.writes.set k
            { done := w.done ++ w.data.take g.toNat
              data := w.data.drop (w.data.take g.toNat).length } }
  | sendFailed {k : Nat} {w : WriteCall} {g : UInt32} (hk : ch.writes[k]? = some w)
      (hg : w.granted = some g) :
      Move ch (.call (.sendData k false)) [ch.dataMessage (w.data.take g.toNat)] (ch.writeReturn k w)
  | closeWrite (h : ch.held = true) : Move ch (.call .closeWrite) [] ch.CloseWrite
  | sendEOF (hn : ch.closeWrites ≠ 0) (hs : ch.sentClose = false) :
      Move ch (.call .sendEOF) [.eof ⟨ch.remoteId⟩] { ch with closeWrites := ch.closeWrites - 1 }
  | dropEOF (hn : ch.closeWrites ≠ 0) (hs : ch.sentClose = true) :
      Move ch (.call .sendEOF) [] { ch with closeWrites := ch.closeWrites - 1 }
  | close (hs : ch.sentClose = false) (hh : ch.held = true) :
      Move ch (.call .close) [.close ⟨ch.remoteId⟩] { ch with sentClose := true }
  -- reading
  | readNone {b : Buffer} {n : Nat} (hh : ch.held = true) (h : ch.pending.Read n = .bytes [] b) :
      Move ch (.call (.read n)) [] { ch with pending := b }
  | read {bs : List UInt8} {b : Buffer} {n : Nat} (hh : ch.held = true)
      (h : ch.pending.Read n = .bytes bs b) (hne : bs ≠ []) :
      Move ch (.call (.read n)) []
        { ch with
          pending := b
          got := ch.got ++ bs
          reads := ch.reads ++ [.took (UInt32.ofNat bs.length)] }
  | credit {k : Nat} {n : UInt32} (hk : ch.reads[k]? = some (.took n)) :
      Move ch (.call (.credit k)) [] { ch with myWindow := ch.myWindow + n, reads := ch.reads.set k (.credited n) }
  | adjust {k : Nat} {n : UInt32} (hk : ch.reads[k]? = some (.credited n))
      (hs : ch.sentClose = false) :
      Move ch (.call (.sendAdjust k)) [.windowAdjust ⟨ch.remoteId, n⟩] { ch with reads := ch.reads.eraseIdx k }
  | dropAdjust {k : Nat} {n : UInt32} (hk : ch.reads[k]? = some (.credited n))
      (hs : ch.sentClose = true) : Move ch (.call (.sendAdjust k)) [] { ch with reads := ch.reads.eraseIdx k }
  -- the loop
  | reply (c : Nat) (hs : ch.sentClose = false) (hc : ch.handled.any Message.isClose = true) :
      Move ch (.op (.reply c)) [.close ⟨ch.remoteId⟩] { ch with sentClose := true }
  | replied (c : Nat) (hs : ch.sentClose = true) : Move ch (.op (.reply c)) [] ch
  | queue (c : Nat) {m : Message} (hm : m ∈ ch.handled) : Move ch (.op (.queue c m)) [] { ch with msg := ch.msg ++ [m] }
  | eof (c : Nat) : Move ch (.op (.eof c)) [] { ch with pending := ch.pending.eof }
  | closeMsg (c : Nat) : Move ch (.op (.closeMsg c)) [] { ch with msgClosed := true }
  | markClosed (c : Nat) : Move ch (.op (.markClosed c)) [] { ch with sentClose := true }
  | closeWin (c : Nat) (hs : ch.sentClose = true) : Move ch (.op (.closeWin c)) [] { ch with remoteWin := ch.remoteWin.close }
  | gotData {m : DataMessage} (hf : m.data.length < 2 ^ 32)
      (h1 : m.length.toNat ≤ ch.maxIncomingPayload.toNat)
      (h2 : m.length = UInt32.ofNat m.data.length) (h3 : m.length.toNat ≤ ch.myWindow.toNat) :
      Move ch (.recv (.data m)) []
        { ch with
          myWindow := ch.myWindow - m.length
          pending := ch.pending.write m.data
          handled := ch.handled ++ [.data m] }
  | gotEOF (m : EOFMessage) :
      Move ch (.recv (.eof m)) [] { ch with pending := ch.pending.eof, handled := ch.handled ++ [.eof m] }
  | gotClose (m : CloseMessage) : Move ch (.recv (.close m)) [] { ch with handled := ch.handled ++ [.close m] }
  | gotAdjust {m : WindowAdjustMessage} {win : Window}
      (h : ch.remoteWin.add m.additionalBytes = some win) :
      Move ch (.recv (.windowAdjust m)) []
        { ch with
          remoteWin := win
          credit := ch.credit + m.additionalBytes.toNat
          handled := ch.handled ++ [.windowAdjust m] }
  | gotConfirm {m : OpenConfirmMessage} {win : Window} (hd : ch.direction = .outbound)
      (h : ch.remoteWin.add m.windowSize = some win) :
      Move ch (.recv (.openConfirm m)) []
        { ch with
          remoteId := m.senderID
          maxRemotePayload := m.maxPacketSize
          remoteWin := win
          credit := ch.credit + m.windowSize.toNat
          handled := ch.handled ++ [.openConfirm m] }
  | gotConfirmOver {m : OpenConfirmMessage} (hd : ch.direction = .outbound)
      (h : ch.remoteWin.add m.windowSize = none) :
      Move ch (.recv (.openConfirm m)) []
        { ch with
          remoteId := m.senderID
          maxRemotePayload := m.maxPacketSize
          handled := ch.handled ++ [.openConfirm m] }
  | gotFailure (m : OpenFailureMessage) (hd : ch.direction = .outbound) :
      Move ch (.recv (.openFailure m)) [] { ch with handled := ch.handled ++ [.openFailure m] }

/-- A channel after handing messages to the encoder. -/
def sends (ch : Channel) (ms : List Message) : Channel := { ch with sent := ch.sent ++ ms }

@[simp] theorem sends_nil (ch : Channel) : ch.sends [] = ch := by simp [sends]

theorem Close_eq (ch : Channel) :
    (ch.sentClose = true ∧ ch.Close = (ch, [])) ∨
      (ch.sentClose = false ∧ ch.Close = ({ ch with sentClose := true }, [.close ⟨ch.remoteId⟩])) := by
  cases h : ch.sentClose with
  | true => exact .inl ⟨rfl, by rw [Close, send, if_pos h]⟩
  | false => exact .inr ⟨rfl, by rw [Close, send, if_neg (by simp [h])]⟩

theorem Move.of_reply {ch : Channel} (c : Nat) (hc : ch.handled.any Message.isClose = true) :
    Move ch (.op (.reply c)) ch.Close.2 ch.Close.1 := by
  rcases ch.Close_eq with ⟨hs, h⟩ | ⟨hs, h⟩
  · rw [h]; exact .replied c hs
  · rw [h]; exact .reply c hs hc

/-- Every step of the application is one of the listed changes. -/
theorem Move.of_step {ch : Channel} {a : Step} {r : Channel × List Message}
    (h : ch.step a = some r) : Move ch (.call a) r.2 r.1 := by
  cases a with
  | sendOpen ok =>
    simp only [step, Channel.sendOpen] at h
    split at h
    · next ho => cases h; exact .sendOpen ok ho
    · cases h
  | opened =>
    simp only [step, Channel.opened] at h
    split at h
    · next ho =>
      split at h
      · next m msg hm => cases h; exact .opened m msg ho hm
      · next m msg _ hm =>
        cases h
        exact .openFailed msg ho fun m' h' => by rw [hm]; exact List.mem_cons_of_mem m h'
      · next hm =>
        split at h
        · cases h
          have := Move.openFailed ch.msg ho (fun m h => h)
          exact this
        · cases h
    · cases h
  | write data =>
    simp only [step, Channel.Write] at h
    split at h
    · next hh =>
      split at h
      · cases h; exact .writeEOF data hh
      · next hs => cases h; exact .write data hh (by simpa using hs)
    · cases h
  | reserve k =>
    simp only [step, Channel.reserve, bind, Option.bind_eq_some_iff] at h
    obtain ⟨ch', ⟨w, hk, h⟩, hr⟩ := h
    cases hr
    split at h
    · cases h
    · next hg =>
      rw [Option.not_isSome_iff_eq_none] at hg
      split at h
      · next hd => cases h; exact .writeDone hk hg hd
      · next hd =>
        obtain ⟨⟨g, closed, win⟩, hres, h⟩ := Option.bind_eq_some_iff.mp h
        cases closed with
        | true => cases h; exact .refused hk hg hres hd
        | false => cases h; exact .granted hk hg hres hd
  | sendData k ok =>
    simp only [step, Channel.sendData, bind, Option.bind_eq_some_iff] at h
    obtain ⟨w, hk, g, hg, h⟩ := h
    cases ok with
    | true => cases h; exact .sendData hk hg
    | false => cases h; exact .sendFailed hk hg
  | read n =>
    simp only [step, Channel.Read] at h
    split at h
    · next hh =>
      split at h
      · next b hb => cases h; exact .readNone hh hb
      · next bs b hne hb => cases h; exact .read hh hb hne
      · cases h; exact .idle _
      · cases h
    · cases h
  | credit k =>
    simp only [step, Channel.adjustWindow, bind, Option.bind_eq_some_iff] at h
    obtain ⟨ch', ⟨o, hk, h⟩, hr⟩ := h
    cases hr
    cases o with
    | took n => cases h; exact .credit hk
    | credited n => cases h
  | sendAdjust k =>
    simp only [step, Channel.sendAdjust, bind, Option.bind_eq_some_iff] at h
    obtain ⟨o, hk, h⟩ := h
    cases o with
    | took n => cases h
    | credited n =>
      simp only [send] at h
      split at h
      · next hs => cases h; exact .dropAdjust hk hs
      · next hs => cases h; exact .adjust hk (by simpa using hs)
  | closeWrite =>
    simp only [step] at h
    split at h
    · next hh => cases h; exact .closeWrite hh
    · cases h
  | sendEOF =>
    simp only [step, Channel.sendEOF, send] at h
    split at h
    · cases h
    · next hn =>
      split at h
      · next hs => cases h; exact .dropEOF hn hs
      · next hs => cases h; exact .sendEOF hn (by simpa using hs)
  | close =>
    simp only [step] at h
    split at h
    · next hh =>
      cases h
      rcases ch.Close_eq with ⟨-, h⟩ | ⟨hs, h⟩
      · rw [h]; exact .idle _
      · rw [h]; exact .close hs hh
    · cases h

/-- What `handle` does at once, when it accepts the message, is one of the changes. -/
theorem Move.of_handle {c : Nat} {ch ch' : Channel} {m : Message} {ops : List LoopOp}
    (hf : Session.Decoded (.ok m)) (h : ch.handle c m = .ok (ch', ops)) :
    Move ch (.recv m) [] { ch' with handled := ch'.handled ++ [m] } := by
  cases m with
  | openMsg m => cases h
  | openConfirm m =>
    simp only [handle] at h
    split at h
    · cases h
    · next hd =>
      have hout : ch.direction = .outbound := by
        cases hdir : ch.direction <;> simp_all
      split at h
      · cases h
      · cases h
        cases ha : ch.remoteWin.add m.windowSize with
        | none => simp only [addWindow, ha]; exact .gotConfirmOver hout ha
        | some win => simp only [addWindow, ha]; exact .gotConfirm hout ha
  | openFailure m =>
    simp only [handle] at h
    split at h
    · cases h
    · next hd =>
      cases h
      exact .gotFailure m (by cases hdir : ch.direction <;> simp_all)
  | windowAdjust m =>
    simp only [handle, addWindow] at h
    cases ha : ch.remoteWin.add m.additionalBytes with
    | none => rw [ha] at h; cases h
    | some win => rw [ha] at h; cases h; exact .gotAdjust ha
  | data m =>
    simp only [handle, handleData] at h
    split at h
    · cases h
    · next h1 =>
      split at h
      · cases h
      · next h2 =>
        split at h
        · cases h
        · next h3 =>
          cases h
          refine .gotData hf ?_ (by simpa using h2) ?_
          · simpa [UInt32.lt_iff_toNat_lt] using h1
          · simpa [UInt32.lt_iff_toNat_lt] using h3
  | eof m => cases h; exact .gotEOF m
  | close m => cases h; exact .gotClose m

/-- What `handle` leaves to the loop. -/
theorem handle_ops {c : Nat} {ch ch' : Channel} {m : Message} {ops : List LoopOp}
    (h : ch.handle c m = .ok (ch', ops)) :
    ch'.msgClosed = ch.msgClosed ∧ ch'.sent = ch.sent ∧ ch'.handled = ch.handled ∧
      (ops = [] ∨
        (∃ m', m = .close m' ∧ ops = .reply c :: .remove ch.localId :: closeOps c) ∨
        (∃ m', m = .openConfirm m' ∧ ops = [.queue c m]) ∨
        (∃ m', m = .openFailure m' ∧ ops = [.remove m'.channelID, .queue c m])) := by
  cases m with
  | openMsg m => cases h
  | openConfirm m =>
    simp only [handle] at h
    split at h
    · cases h
    · split at h
      · cases h
      · cases h
        refine ⟨?_, ?_, ?_, .inr (.inr (.inl ⟨m, rfl, rfl⟩))⟩ <;>
          cases ha : ch.remoteWin.add m.windowSize <;> simp [addWindow, ha]
  | openFailure m =>
    simp only [handle] at h
    split at h
    · cases h
    · cases h
      exact ⟨rfl, rfl, rfl, .inr (.inr (.inr ⟨m, rfl, rfl⟩))⟩
  | windowAdjust m =>
    simp only [handle, addWindow] at h
    cases ha : ch.remoteWin.add m.additionalBytes with
    | none => rw [ha] at h; cases h
    | some win => rw [ha] at h; cases h; exact ⟨rfl, rfl, rfl, .inl rfl⟩
  | data m =>
    simp only [handle, handleData] at h
    split at h
    · cases h
    · split at h
      · cases h
      · split at h
        · cases h
        · cases h; exact ⟨rfl, rfl, rfl, .inl rfl⟩
  | eof m => cases h; exact ⟨rfl, rfl, rfl, .inl rfl⟩
  | close m => cases h; exact ⟨rfl, rfl, rfl, .inr (.inl ⟨m, rfl, rfl⟩)⟩

end Channel

namespace Session

/-- The session after `newChannel`. -/
def added (s : Session) (mk : UInt32 → Channel) : Session :=
  { s.put s.fresh (mk (s.chanList.add s.fresh).2) with
    chanList := (s.chanList.add s.fresh).1
    fresh := s.fresh + 1 }

theorem newChannel_eq_some {s s' : Session} {mk : UInt32 → Channel}
    (h : s.newChannel mk = some s') : s.chanList.length + 1 < 2 ^ 32 ∧ s' = s.added mk := by
  rw [newChannel] at h
  split at h
  · next hl => cases h; exact ⟨hl, rfl⟩
  · cases h

/-- Every step of a session, with its guard. -/
inductive Trans (s : Session) : Act → Session → List Packet → Prop where
  -- the application
  | register (hl : s.chanList.length + 1 < 2 ^ 32) :
      Trans s .register (s.added outboundChannel) []
  | call {c : Nat} {a : Channel.Step} {r : Channel × List Message} (hc : c < s.fresh)
      (h : (s.heap c).step a = some r) : Trans s (.call c a) (s.emit c r).1 (s.emit c r).2
  | accept {c : Nat} {incoming : List Nat} (h : s.incoming = c :: incoming) :
      Trans s .accept { s.put c { s.heap c with held := true } with incoming } []
  | acceptEOF (h : s.closeCh = true) : Trans s .acceptEOF { s with closeCh := false } []
  | close : Trans s .close { s with connClosed := true } []
  -- the loop, on a packet
  | outOfRange (hr : s.running = true) (ho : s.ops = []) :
      Trans s (.recv (.error .outOfRange)) { s with fault := some .outOfRange } []
  | undecoded {e : DecodeError} (hr : s.running = true) (ho : s.ops = []) (he : e ≠ .outOfRange) :
      Trans s (.recv (.error e)) (s.exit (.decode e)) []
  | unknown {m : Message} (hr : s.running = true) (ho : s.ops = []) (hm : m.channel.2 = true)
      (hg : s.chanList.getChan m.channel.1 = none) :
      Trans s (.recv (.ok m)) (s.exit (.invalidChannel m.channel.1)) []
  | refuse {m : Message} {c : Nat} {e : LoopError} (hr : s.running = true) (ho : s.ops = [])
      (hm : m.channel.2 = true) (hg : s.chanList.getChan m.channel.1 = some c)
      (h : (s.heap c).handle c m = .error e) : Trans s (.recv (.ok m)) (s.exit e) []
  | handle {m : Message} {c : Nat} {ch : Channel} {ops : List LoopOp} (hr : s.running = true)
      (ho : s.ops = []) (hf : Decoded (.ok m)) (hm : m.channel.2 = true)
      (hg : s.chanList.getChan m.channel.1 = some c)
      (h : (s.heap c).handle c m = .ok (ch, ops)) :
      Trans s (.recv (.ok m)) { s.put c { ch with handled := ch.handled ++ [m] } with ops } []
  | rejectOpen {m : OpenMessage} (hr : s.running = true) (ho : s.ops = [])
      (hm : m.maxPacketSize < minPacketLength ∨ m.maxPacketSize > maxPacketLength) :
      Trans s (.recv (.ok (.openMsg m))) { s with ops := [.reject m.senderID] } []
  | handleOpen {m : OpenMessage} (hr : s.running = true) (ho : s.ops = [])
      (hm : ¬ (m.maxPacketSize < minPacketLength ∨ m.maxPacketSize > maxPacketLength))
      (hl : s.chanList.length + 1 < 2 ^ 32) :
      Trans s (.recv (.ok (.openMsg m)))
        { s.added (inboundChannel m) with ops := [.publish s.fresh, .confirm s.fresh] } []
  -- the loop, going on
  | publish {c : Nat} {ops : List LoopOp} (ok : Bool) (ho : s.ops = .publish c :: ops)
      (hi : s.incoming.length < chanSize) :
      Trans s (.loop ok) { s with ops, incoming := s.incoming ++ [c] } []
  | confirm {c : Nat} {ops : List LoopOp} (ho : s.ops = .confirm c :: ops) :
      Trans s (.loop true) { s.put c ((s.heap c).sends [(s.heap c).confirmMessage]) with ops }
        [⟨some c, (s.heap c).confirmMessage⟩]
  | confirmFailed {c : Nat} {ops : List LoopOp} (ho : s.ops = .confirm c :: ops) :
      Trans s (.loop false)
        ((s.put c ((s.heap c).sends [(s.heap c).confirmMessage])).exit .encode)
        [⟨some c, (s.heap c).confirmMessage⟩]
  | reject {id : UInt32} {ops : List LoopOp} (ho : s.ops = .reject id :: ops) :
      Trans s (.loop true) { s with ops } [⟨none, .openFailure ⟨id⟩⟩]
  | rejectFailed {id : UInt32} {ops : List LoopOp} (ho : s.ops = .reject id :: ops) :
      Trans s (.loop false) (s.exit .encode) [⟨none, .openFailure ⟨id⟩⟩]
  | queue {c : Nat} {m : Message} {ops : List LoopOp} (ok : Bool) (ho : s.ops = .queue c m :: ops)
      (hc : (s.heap c).msgClosed = false) (hq : (s.heap c).msg.length < chanSize) :
      Trans s (.loop ok) { s.put c { s.heap c with msg := (s.heap c).msg ++ [m] } with ops } []
  | queueClosed {c : Nat} {m : Message} {ops : List LoopOp} (ok : Bool)
      (ho : s.ops = .queue c m :: ops) (hc : (s.heap c).msgClosed = true) :
      Trans s (.loop ok) { s with ops, fault := some .sendOnClosed } []
  | reply {c : Nat} {ops : List LoopOp} (ok : Bool) (ho : s.ops = .reply c :: ops) :
      Trans s (.loop ok) { (s.emit c (s.heap c).Close).1 with ops } (s.emit c (s.heap c).Close).2
  | remove {id : UInt32} {ops : List LoopOp} (ok : Bool) (ho : s.ops = .remove id :: ops) :
      Trans s (.loop ok) { s with ops, chanList := s.chanList.remove id } []
  | eof {c : Nat} {ops : List LoopOp} (ok : Bool) (ho : s.ops = .eof c :: ops) :
      Trans s (.loop ok) { s.put c { s.heap c with pending := (s.heap c).pending.eof } with ops } []
  | closeMsg {c : Nat} {ops : List LoopOp} (ok : Bool) (ho : s.ops = .closeMsg c :: ops)
      (hc : (s.heap c).msgClosed = false) :
      Trans s (.loop ok) { s.put c { s.heap c with msgClosed := true } with ops } []
  | closeMsgTwice {c : Nat} {ops : List LoopOp} (ok : Bool) (ho : s.ops = .closeMsg c :: ops)
      (hc : (s.heap c).msgClosed = true) :
      Trans s (.loop ok) { s with ops, fault := some .closeOfClosed } []
  | markClosed {c : Nat} {ops : List LoopOp} (ok : Bool) (ho : s.ops = .markClosed c :: ops) :
      Trans s (.loop ok) { s.put c { s.heap c with sentClose := true } with ops } []
  | closeWin {c : Nat} {ops : List LoopOp} (ok : Bool) (ho : s.ops = .closeWin c :: ops) :
      Trans s (.loop ok)
        { s.put c { s.heap c with remoteWin := (s.heap c).remoteWin.close } with ops } []
  | dropAll {ops : List LoopOp} (ok : Bool) (ho : s.ops = .dropAll :: ops) :
      Trans s (.loop ok)
        { s with chanList := [], ops := s.chanList.dropAll.flatMap closeOps ++ ops } []
  | connClose {ops : List LoopOp} (ok : Bool) (ho : s.ops = .connClose :: ops) :
      Trans s (.loop ok) { s with ops, connClosed := true } []
  | signal {ops : List LoopOp} (ok : Bool) (ho : s.ops = .signal :: ops) :
      Trans s (.loop ok) { s with ops, closeCh := true } []
  | setErr {e : LoopError} {ops : List LoopOp} (ok : Bool) (ho : s.ops = .setErr e :: ops) :
      Trans s (.loop ok) { s with ops, err := some e } []

theorem Trans.of_loop {s s' : Session} {ok : Bool} {out : List Packet}
    (h : s.loopStep ok = some (s', out)) : Trans s (.loop ok) s' out := by
  rw [loopStep] at h
  cases ho : s.ops with
  | nil => rw [ho] at h; cases h
  | cons op ops =>
    rw [ho] at h
    cases op with
    | publish c =>
      simp only [runOp] at h
      split at h
      · next hi => cases h; exact .publish ok ho hi
      · cases h
    | confirm c =>
      cases ok with
      | true => cases h; exact .confirm ho
      | false => cases h; exact .confirmFailed ho
    | reject id =>
      cases ok with
      | true => cases h; exact .reject ho
      | false => cases h; exact .rejectFailed ho
    | queue c m =>
      simp only [runOp] at h
      split at h
      · next hc => cases h; exact .queueClosed ok ho hc
      · next hc =>
        split at h
        · next hq => cases h; exact .queue ok ho (by simpa using hc) hq
        · cases h
    | reply c => cases h; exact .reply ok ho
    | remove id => cases h; exact .remove ok ho
    | eof c => cases h; exact .eof ok ho
    | closeMsg c =>
      simp only [runOp] at h
      split at h
      · next hc => cases h; exact .closeMsgTwice ok ho hc
      · next hc => cases h; exact .closeMsg ok ho (by simpa using hc)
    | markClosed c => cases h; exact .markClosed ok ho
    | closeWin c => cases h; exact .closeWin ok ho
    | dropAll => cases h; exact .dropAll ok ho
    | connClose => cases h; exact .connClose ok ho
    | signal => cases h; exact .signal ok ho
    | setErr e => cases h; exact .setErr ok ho

theorem Trans.of_recv {s s' : Session} {r : Except DecodeError Message} (hr : s.running = true)
    (ho : s.ops = []) (hf : Decoded r) (h : s.onePacket r = some s') :
    Trans s (.recv r) s' [] := by
  cases r with
  | error e =>
    by_cases he : e = .outOfRange
    · subst he
      cases h
      exact .outOfRange hr ho
    · have : s' = s.exit (.decode e) := by
        cases e with
        | outOfRange => exact absurd rfl he
        | _ => cases h; rfl
      rw [this]
      exact .undecoded hr ho he
  | ok m =>
    by_cases hm : m.channel.2 = true
    · have hne : s.onePacket (.ok m) = (s.chanList.getChan m.channel.1).elim
          (some (s.exit (.invalidChannel m.channel.1))) fun c => some (s.handle c m) := by
        cases m with
        | openMsg m => cases hm
        | _ =>
          simp only [Session.onePacket, Message.channel, if_true]
          cases s.chanList.getChan _ <;> rfl
      rw [hne] at h
      cases hg : s.chanList.getChan m.channel.1 with
      | none => rw [hg] at h; cases h; exact .unknown hr ho hm hg
      | some c =>
        rw [hg] at h
        cases h
        rw [Session.handle]
        cases hh : (s.heap c).handle c m with
        | error e => exact .refuse hr ho hm hg hh
        | ok p => exact .handle hr ho hf hm hg hh
    · cases m with
      | openMsg m =>
        have he : s.onePacket (.ok (.openMsg m)) = s.handleOpen m := rfl
        rw [he, Session.handleOpen] at h
        split at h
        · next hbad => cases h; exact .rejectOpen hr ho hbad
        · next hgood =>
          simp only [bind, Option.bind_eq_some_iff] at h
          obtain ⟨s1, h1, h⟩ := h
          obtain ⟨hl, rfl⟩ := newChannel_eq_some h1
          cases h
          exact .handleOpen hr ho hgood hl
      | _ => exact absurd rfl hm

/-- The list of steps is complete. -/
theorem Trans.of_step {s s' : Session} {a : Act} {out : List Packet}
    (h : s.step a = some (s', out)) : Trans s a s' out := by
  unfold Session.step at h
  split at h
  · cases h
  · cases a with
    | register =>
      simp only [bind, Option.bind_eq_some_iff] at h
      obtain ⟨s1, h1, h⟩ := h
      obtain ⟨hl, rfl⟩ := newChannel_eq_some h1
      cases h
      exact .register hl
    | call c a =>
      simp only at h
      split at h
      · next hc =>
        simp only [bind, Option.bind_eq_some_iff] at h
        obtain ⟨r, hr, h⟩ := h
        cases h
        exact .call hc hr
      · cases h
    | accept =>
      simp only at h
      split at h
      · cases h
      · next c incoming hi => cases h; exact .accept hi
    | acceptEOF =>
      simp only at h
      split at h
      · next hc => cases h; exact .acceptEOF hc
      · cases h
    | close => cases h; exact .close
    | recv r =>
      simp only at h
      split at h
      · next hro =>
        simp only [bind, Option.bind_eq_some_iff] at h
        obtain ⟨s1, h1, h⟩ := h
        cases h
        exact .of_recv hro.1 hro.2.1 hro.2.2 h1
      · cases h
    | loop ok => exact .of_loop h

end Session

end Qtalk.Mux
