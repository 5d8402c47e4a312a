import Qtalk.Js.Agreement
import Qtalk.Js.Output
import Qtalk.Mux.Channel

/-!
# Flow control

`Channel` keeps `maxRemotePayload`, `remoteWin` and `myWindow`, and only `handleData` looks
at one of them. `write` sends what it is given ("TODO: use window"), and a read gives nothing
back (`adjustWindow` is a stub). The protocol is kept in the runs in which each write is
within the peer's bounds and no read gets a byte (`flow_controlled`).
-/

namespace Qtalk.Js
open Qtalk.Lib

/-! ## What the log tells of the windows -/

/-- The peer's MaxPacketSize behind an entry; a refused OpenConfirm does not count. -/
def Entry.advertises (maxSize : Nat) : Entry → Nat
  | .got (.openMsg _ _ maxPacketSize) => maxPacketSize
  | .got (.openConfirm _ _ _ maxPacketSize) =>
    if maxPacketSize < Channel.minPacketLength then maxSize else maxPacketSize
  | _ => maxSize

/-- What an entry adds to the peer's window. -/
def Entry.credit : Entry → Nat
  | .got (.openMsg _ windowSize _) => windowSize
  | .got (.openConfirm _ _ windowSize maxPacketSize) =>
    if maxPacketSize < Channel.minPacketLength then 0 else windowSize
  | .got (.windowAdjust _ additionalBytes) => additionalBytes
  | _ => 0

/-- The length of a Data message that is written. -/
def Entry.dataSent : Entry → Nat
  | .sent (.data _ length _) => length
  | _ => 0

/-- The credit that is given back to the peer. -/
def Entry.givenBack : Entry → Nat
  | .sent (.windowAdjust _ additionalBytes) => additionalBytes
  | _ => 0

/-- The peer's MaxPacketSize. -/
def advertised (log : List Entry) : Nat := log.foldl Entry.advertises 0

/-- The peer's initial window and its WindowAdjust credit. -/
def credit (log : List Entry) : Nat := (log.map Entry.credit).sum

/-- The total of the data written. -/
def dataSent (log : List Entry) : Nat := (log.map Entry.dataSent).sum

/-- The total of the credit given back. -/
def givenBack (log : List Entry) : Nat := (log.map Entry.givenBack).sum

/-- How many bytes a promise is resolved with. -/
def Value.count : Value → Nat
  | .bytes bs => bs.length
  | _ => 0

/-- The total of the bytes handed to readers. -/
def handed (settled : List (Nat × Value)) : Nat := (settled.map fun x => x.2.count).sum

/-- Every Data message is within the peer's MaxPacketSize and, with the data before it,
within the credit there was. -/
def WithinCredit (log : List Entry) : Prop :=
  ∀ pre id length data post, log = pre ++ .sent (.data id length data) :: post →
    length = data.length ∧ length ≤ advertised pre ∧ dataSent pre + length ≤ credit pre

/-- A channel follows the protocol: its data is within bounds, what its readers got is given
back, and the window is what is not in the buffer. -/
structure FlowControlled (v : View) : Prop where
  written : WithinCredit v.log
  given : givenBack v.log = handed v.settled
  window : ∀ buf, v.ch.readBuf = some buf → v.ch.myWindow + buf.length = channelWindowSize

section Log

variable (l l' : List Entry)

@[simp] theorem credit_append : credit (l ++ l') = credit l + credit l' := by
  simp [credit]

@[simp] theorem dataSent_append : dataSent (l ++ l') = dataSent l + dataSent l' := by
  simp [dataSent]

@[simp] theorem givenBack_append : givenBack (l ++ l') = givenBack l + givenBack l' := by
  simp [givenBack]

@[simp] theorem handed_append (s s' : List (Nat × Value)) : handed (s ++ s') = handed s + handed s' := by
  simp [handed]

/-- A message that is written tells nothing of the peer. -/
theorem advertised_sent (ms : List Message) :
    advertised (l ++ ms.map .sent) = advertised l ∧ credit (ms.map .sent) = 0 := by
  induction ms generalizing l with
  | nil => exact ⟨by rw [List.map_nil, List.append_nil], rfl⟩
  | cons m ms ih =>
    obtain ⟨h1, h2⟩ := ih (l ++ [.sent m])
    refine ⟨?_, ?_⟩
    · rw [List.map_cons, ← List.singleton_append, ← List.append_assoc, h1, advertised,
        List.foldl_append]
      rfl
    · rw [List.map_cons, credit, List.map_cons, List.sum_cons]
      exact (Nat.zero_add _).trans h2

end Log

namespace WithinCredit

variable {log : List Entry}

/-- One more entry, which is no Data message that is written or one within bounds. -/
theorem snoc (h : WithinCredit log) {e : Entry}
    (he : ∀ id length data, e = .sent (.data id length data) →
      length = data.length ∧ length ≤ advertised log ∧ dataSent log + length ≤ credit log) :
    WithinCredit (log ++ [e]) := by
  intro pre id length data post heq
  rcases List.eq_nil_or_concat post with rfl | ⟨post', x, rfl⟩
  · obtain ⟨rfl, hx⟩ := List.append_inj' heq rfl
    exact he id length data (List.cons.inj hx).1
  · have heq' : log ++ [e] = (pre ++ .sent (.data id length data) :: post') ++ [x] := by
      rw [heq, List.concat_eq_append, List.append_assoc]
      rfl
    obtain ⟨hlog, -⟩ := List.append_inj' heq' rfl
    exact h pre id length data post' hlog

theorem nil : WithinCredit [] := by
  intro pre id length data post heq
  simp at heq

theorem silent (h : WithinCredit log) {es : List Entry}
    (hd : ∀ id length data, .sent (.data id length data) ∉ es) : WithinCredit (log ++ es) := by
  induction es generalizing log with
  | nil => rwa [List.append_nil]
  | cons e es ih =>
    rw [← List.singleton_append, ← List.append_assoc]
    refine ih (h.snoc fun id length data heq => ?_)
      (fun id length data h => hd id length data (List.mem_cons_of_mem _ h))
    exact absurd (heq ▸ List.mem_cons_self) (hd id length data)

end WithinCredit

/-! ## What a method does to the windows -/

/-- A read of this length gets no byte from the buffer. -/
def Starved : Option (List UInt8) → Nat → Prop
  | none, _ => True
  | some buf, len => buf = [] ∨ buf.length < len

instance : (buf : Option (List UInt8)) → (len : Nat) → Decidable (Starved buf len)
  | none, _ => .isTrue trivial
  | some buf, len => inferInstanceAs (Decidable (buf = [] ∨ buf.length < len))

/-- The first read that is parked, if any, gets no byte. -/
def StaysParked (buf : Option (List UInt8)) : List (Nat × Nat) → Prop
  | [] => True
  | reader :: _ => Starved buf reader.2

instance (buf : Option (List UInt8)) : (readers : List (Nat × Nat)) → Decidable (StaysParked buf readers)
  | [] => .isTrue trivial
  | reader :: _ => inferInstanceAs (Decidable (Starved buf reader.2))

/-- The read that a Data message wakes gets no byte. -/
def Channel.WakesNone (c : Chan) (data : List UInt8) : Prop :=
  StaysParked (c.readBuf.map (· ++ data)) c.readers

instance (c : Chan) (data : List UInt8) : Decidable (c.WakesNone data) :=
  inferInstanceAs (Decidable (StaysParked _ _))

/-- A method that writes no data and hands over none; what came in is counted in the windows. -/
structure Steady (c : Chan) (call : Call) (out : Outcome) : Prop where
  maxSize : out.ch.maxRemotePayload = call.entries.foldl Entry.advertises c.maxRemotePayload
  win : out.ch.remoteWin = c.remoteWin + credit call.entries
  window : ∀ buf, out.ch.readBuf = some buf → ∃ buf', c.readBuf = some buf' ∧
    out.ch.myWindow + buf.length = c.myWindow + buf'.length
  silent : ∀ m ∈ View.encodes out.effects, m.isData = false ∧ Entry.givenBack (.sent m) = 0
  keeps : handed (View.settles out.effects) = 0

/-- The fields that flow control is about. -/
structure SameFlow (c ch : Chan) : Prop where
  maxSize : ch.maxRemotePayload = c.maxRemotePayload
  win : ch.remoteWin = c.remoteWin
  mine : ch.myWindow = c.myWindow
  buf : ch.readBuf = c.readBuf ∨ ch.readBuf = none

namespace SameFlow

variable {c ch : Chan}

theorem refl (c : Chan) : SameFlow c c := ⟨rfl, rfl, rfl, .inl rfl⟩

theorem trans {ch' : Chan} (h : SameFlow c ch) (h' : SameFlow ch ch') : SameFlow c ch' := by
  refine ⟨h'.maxSize.trans h.maxSize, h'.win.trans h.win, h'.mine.trans h.mine, ?_⟩
  rcases h'.buf with hbuf | hbuf
  · rw [hbuf]
    exact h.buf
  · exact .inr hbuf

theorem steady {call : Call} {out : Outcome} (h : SameFlow c out.ch)
    (hentries : ∀ e ∈ call.entries, (∀ n, e.advertises n = n) ∧ e.credit = 0)
    (hsilent : ∀ m ∈ View.encodes out.effects, m.isData = false ∧ Entry.givenBack (.sent m) = 0)
    (hkeeps : handed (View.settles out.effects) = 0) : Steady c call out := by
  have hentry : call.entries.foldl Entry.advertises c.maxRemotePayload = c.maxRemotePayload ∧
      credit call.entries = 0 := by
    cases call with
    | handle p m =>
      obtain ⟨h1, h2⟩ := hentries (.got m) List.mem_cons_self
      exact ⟨h1 _, (Nat.add_zero _).trans h2⟩
    | _ => exact ⟨rfl, rfl⟩
  refine ⟨by rw [h.maxSize, hentry.1], by rw [h.win, hentry.2, Nat.add_zero], fun buf hb => ?_, hsilent,
    hkeeps⟩
  rcases h.buf with hbuf | hbuf
  · exact ⟨buf, hbuf ▸ hb, by rw [h.mine]⟩
  · rw [hbuf] at hb
    cases hb

end SameFlow

namespace Channel

variable {c : Chan}

/-- A read that gets no byte. -/
theorem starved_tryRead {len : Nat} (h : Starved c.readBuf len) (p q : Nat) :
    SameFlow c (c.tryRead p len).2 ∧ handed (View.settles ((c.tryRead p len).1.settle q)) = 0 := by
  rw [tryRead]
  cases hb : c.readBuf with
  | none => exact ⟨.refl c, rfl⟩
  | some buf =>
    rw [hb] at h
    rcases h with hnil | hlt
    · subst hnil
      dsimp only
      rw [if_neg (by simp)]
      split
      · refine ⟨⟨rfl, rfl, rfl, ?_⟩, by simp [ReadResult.settle, View.settles, handed, Value.count]⟩
        split
        · exact .inr rfl
        · exact .inl (by simp [hb])
      · exact ⟨⟨rfl, rfl, rfl, .inl hb.symm⟩, rfl⟩
    · dsimp only
      rw [if_neg (by omega), if_neg (by omega)]
      exact ⟨⟨rfl, rfl, rfl, .inl hb.symm⟩, rfl⟩

theorem steady_read {len : Nat} (h : Starved c.readBuf len) (p : Nat) :
    Steady c (.read p len) (c.read p len) := by
  obtain ⟨hsame, hkeeps⟩ := starved_tryRead h p p
  exact hsame.steady (by simp [Call.entries]) (by simp [read]) hkeeps

theorem same_send (c : Chan) (m : Message) : SameFlow c (c.send m).ch := by
  rw [send]
  split <;> exact ⟨rfl, rfl, rfl, .inl rfl⟩

theorem encodes_send (c : Chan) (m : Message) :
    View.encodes (c.send m).effects = if c.sentClose = true then [] else [m] := by
  rw [send]
  split <;> rfl

theorem settles_send (c : Chan) (m : Message) : View.settles (c.send m).effects = [] := by
  rw [send]
  split <;> rfl

theorem steady_closeWrite (c : Chan) : Steady c .closeWrite c.closeWrite := by
  obtain ⟨h1, h2, h3, h4⟩ := same_send { c with sentEOF := true } (.eof c.remoteId)
  have hsame : SameFlow c c.closeWrite.ch := ⟨h1, h2, h3, h4⟩
  refine hsame.steady (by simp [Call.entries]) (fun m hm => ?_) ?_
  · rw [closeWrite, encodes_send] at hm
    dsimp only at hm
    split at hm
    · cases hm
    · rw [List.mem_singleton.mp hm]
      exact ⟨rfl, rfl⟩
  · rw [closeWrite, settles_send]
    rfl

theorem same_shutdown (c : Chan) : SameFlow c c.shutdown.ch := ⟨rfl, rfl, rfl, .inr rfl⟩

theorem handed_shutdown (c : Chan) : handed (View.settles c.shutdown.effects) = 0 := by
  rw [settles_shutdown]
  induction c.readers with
  | nil => rfl
  | cons r rs ih => exact (Nat.zero_add _).trans ih

/-- `close`, by the application or for the peer's Close. -/
theorem same_close (c : Chan) (p : Nat) :
    SameFlow c (c.close p).ch ∧ handed (View.settles (c.close p).effects) = 0 ∧
      ∀ m ∈ View.encodes (c.close p).effects, m.isData = false ∧ Entry.givenBack (.sent m) = 0 := by
  rw [close]
  split
  · refine ⟨same_shutdown c, ?_, fun m hm => ?_⟩
    · dsimp only
      rw [View.settles_append, handed_append, handed_shutdown]
      rfl
    dsimp only at hm
    rw [View.encodes_append, encodes_shutdown] at hm
    cases hm
  · next hopen =>
    refine ⟨same_send c _, ?_, fun m hm => ?_⟩
    · dsimp only
      rw [View.settles_append, settles_send]
      rfl
    · dsimp only at hm
      rw [View.encodes_append, encodes_send, if_neg hopen] at hm
      rw [List.mem_singleton.mp hm]
      exact ⟨rfl, rfl⟩

theorem steady_shutdown (c : Chan) : Steady c .shutdown c.shutdown :=
  (same_shutdown c).steady (by simp [Call.entries]) (by simp) (handed_shutdown c)

/-- What resolves a `shift` or leaves it to wait. -/
theorem same_shift (c : Chan) (w : Waiter) :
    SameFlow c (c.shift w).ch ∧ View.encodes (c.shift w).effects = [] ∧
      View.settles (c.shift w).effects = [] := by
  rw [shift]
  dsimp only
  refine ⟨⟨rfl, rfl, rfl, .inl rfl⟩, ?_⟩
  cases (c.ready.shift w).2 <;> exact ⟨rfl, rfl⟩

theorem same_pushReady (c : Chan) (v : Bool) :
    SameFlow c (c.pushReady v).ch ∧ View.encodes (c.pushReady v).effects = [] ∧
      View.settles (c.pushReady v).effects = [] := by
  rw [pushReady]
  split
  · exact ⟨.refl c, rfl, rfl⟩
  · next ready waiter h =>
    refine ⟨⟨rfl, rfl, rfl, .inl rfl⟩, ?_⟩
    cases waiter <;> exact ⟨rfl, rfl⟩

theorem steady_resume (c : Chan) (t : Task) : Steady c (.resume t) (c.resume t) := by
  have hshift : ∀ ch w, SameFlow c ch → (c.resume t) = ch.shift w → Steady c (.resume t) (c.resume t) := by
    intro ch w hch heq
    obtain ⟨hsame, hsilent, hsettles⟩ := same_shift ch w
    rw [heq]
    exact (hch.trans hsame).steady (by simp [Call.entries]) (by simp [hsilent]) (by rw [hsettles]; rfl)
  cases t with
  | opened p => exact hshift c _ (.refl c) rfl
  | openReady p v =>
    refine SameFlow.steady (.refl c) (by simp [Call.entries]) (by simp [resume, View.encodes]) ?_
    rw [resume]
    dsimp only
    split <;> rfl
  | closeSent p => exact hshift { c with sentClose := true } _ ⟨rfl, rfl, rfl, .inl rfl⟩ rfl
  | closeReady p v =>
    cases v with
    | none => exact SameFlow.steady (.refl c) (by simp [Call.entries]) (by simp [resume, View.encodes]) rfl
    | some v => exact hshift c _ (.refl c) rfl

/-- Data that comes in goes from the window to the buffer. -/
theorem steady_data {length : Nat} {data : List UInt8} (hlen : length = data.length)
    (hparked : length ≤ c.maxIncomingPayload → length ≤ c.myWindow → c.WakesNone data)
    (id p : Nat) : Steady c (.handle p (.data id length data)) (c.handle p (.data id length data)) := by
  have hentries : ∀ e ∈ Call.entries (.handle p (.data id length data)),
      (∀ n, e.advertises n = n) ∧ e.credit = 0 := by
    intro e he
    rw [List.mem_singleton.mp he]
    exact ⟨fun _ => rfl, rfl⟩
  have htaken : length ≤ c.myWindow → ∀ (ch : Chan), ch.myWindow = c.myWindow - length →
      ch.readBuf = c.readBuf.map (· ++ data) → ∀ buf, ch.readBuf = some buf →
      ∃ buf', c.readBuf = some buf' ∧ ch.myWindow + buf.length = c.myWindow + buf'.length := by
    intro hwin ch hw hb buf hbuf
    rw [hb] at hbuf
    obtain ⟨buf', hb', rfl⟩ := Option.map_eq_some_iff.mp hbuf
    refine ⟨buf', hb', ?_⟩
    rw [hw, List.length_append]
    omega
  rw [handle]
  cases hd : c.handleData length data with
  | error e => exact SameFlow.steady (.refl c) hentries (by simp [View.encodes]) rfl
  | ok res =>
    obtain ⟨woken, ch⟩ := res
    obtain ⟨hmax, hwin, ⟨-, rfl, rfl⟩ | ⟨q, len, readers, hr, rfl, rfl⟩⟩ := handleData_ok hd
    · exact ⟨rfl, rfl, htaken hwin _ rfl rfl, by simp [View.encodes], rfl⟩
    · have hstarved : Starved (c.taken length data readers).readBuf len := by
        have h := hparked hmax hwin
        rw [WakesNone, hr] at h
        exact h
      obtain ⟨hsame, hkeeps⟩ := starved_tryRead hstarved q q
      refine ⟨hsame.maxSize, hsame.win, fun buf hb => ?_, by simp, ?_⟩
      · rcases hsame.buf with hbuf | hbuf
        · refine htaken hwin _ (hsame.mine.trans rfl) (hbuf.trans rfl) buf hb
        · dsimp only at hb
          rw [hbuf] at hb
          cases hb
      · simpa using hkeeps

theorem steady_handle (p : Nat) {m : Message} (hm : m.isOpen = false)
    (hdata : ∀ id length data, m = .data id length data → length = data.length ∧
      (length ≤ c.maxIncomingPayload → length ≤ c.myWindow → c.WakesNone data)) :
    Steady c (.handle p m) (c.handle p m) := by
  cases m with
  | openMsg senderID windowSize maxPacketSize => cases hm
  | openConfirm channelID senderID windowSize maxPacketSize =>
    rw [handle]
    by_cases hmax : maxPacketSize < minPacketLength
    · rw [if_pos hmax]
      refine SameFlow.steady (.refl c) (fun e he => ?_) (by simp [View.encodes]) rfl
      rw [List.mem_singleton.mp he]
      exact ⟨fun n => if_pos hmax, if_pos hmax⟩
    · rw [if_neg hmax]
      obtain ⟨⟨h1, h2, h3, h4⟩, hsilent, hsettles⟩ := same_pushReady { c with
        remoteId := senderID, maxRemotePayload := maxPacketSize, remoteWin := c.remoteWin + windowSize } true
      refine ⟨h1.trans (if_neg hmax).symm, h2.trans ?_, fun buf hb => ?_, by simp [hsilent], ?_⟩
      · have hcredit : Entry.credit (.got (.openConfirm channelID senderID windowSize maxPacketSize))
            = windowSize := if_neg hmax
        simp [credit, Call.entries, hcredit]
      · rcases h4 with h4 | h4
        · exact ⟨buf, h4.symm.trans hb, congrArg (· + buf.length) h3⟩
        · rw [h4] at hb
          cases hb
      · rw [hsettles]
        rfl
  | openFailure channelID =>
    obtain ⟨hsame, hsilent, hsettles⟩ := same_pushReady c false
    have hsame' : SameFlow c (c.handle p (.openFailure channelID)).ch := hsame
    refine hsame'.steady (fun e he => ?_) (fun m hm => ?_) ?_
    · rw [List.mem_singleton.mp he]
      exact ⟨fun _ => rfl, rfl⟩
    · have hm' : m ∈ View.encodes (c.pushReady false).effects := hm
      rw [hsilent] at hm'
      cases hm'
    · have hs : View.settles (c.handle p (.openFailure channelID)).effects = [] := hsettles
      rw [hs]
      rfl
  | windowAdjust channelID additionalBytes =>
    exact ⟨rfl, rfl, fun buf hb => ⟨buf, hb, rfl⟩, by simp [handle, View.encodes], rfl⟩
  | data channelID length data =>
    obtain ⟨hlen, hparked⟩ := hdata channelID length data rfl
    exact steady_data hlen hparked channelID p
  | eof channelID =>
    refine SameFlow.steady ⟨rfl, rfl, rfl, .inl rfl⟩ (fun e he => ?_) (by simp [handle, View.encodes]) rfl
    rw [List.mem_singleton.mp he]
    exact ⟨fun _ => rfl, rfl⟩
  | close channelID =>
    obtain ⟨hsame, hkeeps, hsilent⟩ := same_close c p
    refine hsame.steady (fun e he => ?_) hsilent hkeeps
    rw [List.mem_singleton.mp he]
    exact ⟨fun _ => rfl, rfl⟩

end Channel

/-! ## Runs -/

/-- What a channel that follows the protocol keeps; nothing is ever given back. -/
structure Flows (v : View) : Prop where
  written : WithinCredit v.log
  maxSize : v.ch.maxRemotePayload = advertised v.log
  win : v.ch.remoteWin = credit v.log
  given : givenBack v.log = 0
  keeps : handed v.settled = 0
  window : ∀ buf, v.ch.readBuf = some buf → v.ch.myWindow + buf.length = channelWindowSize

namespace Flows

variable {v : View}

theorem controlled (h : Flows v) : FlowControlled v :=
  ⟨h.written, h.given.trans h.keeps.symm, h.window⟩

theorem steady (h : Flows v) {call : Call} (hs : Steady v.ch call (v.ch.enter call)) :
    Flows (v.enter call) := by
  have hgiven : ∀ ms : List Message, (∀ m ∈ ms, m.isData = false ∧ Entry.givenBack (.sent m) = 0) →
      givenBack (ms.map .sent) = 0 := by
    intro ms hms
    induction ms with
    | nil => rfl
    | cons m ms ih =>
      obtain ⟨hm, hms⟩ := List.forall_mem_cons.mp hms
      rw [List.map_cons, givenBack, List.map_cons, List.sum_cons, hm.2, Nat.zero_add]
      exact ih hms
  have hgot : givenBack call.entries = 0 := by
    cases call <;> rfl
  rw [View.enter_eq]
  refine ⟨?_, ?_, ?_, ?_, ?_, fun buf hb => ?_⟩
  · refine (h.written.silent fun id length data he => ?_).silent fun id length data he => ?_
    · cases call with
      | handle p m => cases List.mem_singleton.mp he
      | _ => cases he
    · obtain ⟨m, hm, heq⟩ := List.mem_map.mp he
      cases heq
      cases (hs.silent _ hm).1
  · rw [(advertised_sent _ _).1, advertised, List.foldl_append, hs.maxSize, h.maxSize, advertised]
  · rw [credit_append, credit_append, (advertised_sent [] _).2, hs.win, h.win, Nat.add_zero]
  · rw [givenBack_append, givenBack_append, h.given, hgot, hgiven _ hs.silent]
  · rw [handed_append, h.keeps, hs.keeps]
  · obtain ⟨buf', hb', heq⟩ := hs.window buf hb
    rw [heq]
    exact h.window buf' hb'

/-- A write that is within the peer's bounds, or that is refused. -/
theorem write (h : Flows v) {buf : List UInt8}
    (hok : v.ch.sentEOF = true ∨ v.ch.sentClose = true ∨
      (buf.length ≤ v.ch.maxRemotePayload ∧ dataSent v.log + buf.length ≤ v.ch.remoteWin)) :
    Flows (v.enter (.write buf)) := by
  have hrefused : (v.ch.enter (.write buf)).ch = v.ch → (v.ch.enter (.write buf)).effects = [] →
      Flows (v.enter (.write buf)) := by
    intro hch heffects
    refine h.steady (SameFlow.steady ?_ (by simp [Call.entries]) ?_ ?_)
    · rw [hch]
      exact .refl v.ch
    · rw [heffects]
      exact List.forall_mem_nil _
    · rw [heffects]
      rfl
  by_cases heof : v.ch.sentEOF = true
  · apply hrefused <;> rw [Channel.enter, Channel.write, if_pos heof]
  · by_cases hclose : v.ch.sentClose = true
    · apply hrefused <;> rw [Channel.enter, Channel.write, if_neg heof, Channel.send, if_pos hclose]
    · have hbounds : buf.length ≤ v.ch.maxRemotePayload ∧ dataSent v.log + buf.length ≤ v.ch.remoteWin := by
        rcases hok with hok | hok | hok
        · exact absurd hok heof
        · exact absurd hok hclose
        · exact hok
      have hsent : v.enter (.write buf) = { v with
          ch := { v.ch with sentClose := false }
          log := v.log ++ [.sent (.data v.ch.remoteId buf.length buf)] } := by
        rw [View.enter_eq, Channel.enter, Channel.write, if_neg heof, Channel.send, if_neg hclose]
        simp [View.removes, View.encodes, View.settles, Call.entries, Message.isClose]
      rw [hsent]
      refine ⟨h.written.snoc fun id length data heq => ?_, ?_, ?_, ?_, h.keeps, h.window⟩
      · cases heq
        exact ⟨rfl, h.maxSize ▸ hbounds.1, h.win ▸ hbounds.2⟩
      · exact h.maxSize.trans (advertised_sent v.log [.data v.ch.remoteId buf.length buf]).1.symm
      · rw [credit_append]
        exact h.win
      · rw [givenBack_append, h.given]
        rfl

end Flows

/-- Data within credit is accepted by a Go channel that has advertised no more than it takes,
and whose window and what it has received cover the credit. -/
theorem WithinCredit.accepted {log pre post : List Entry} (h : WithinCredit log) {id length : Nat}
    {data : List UInt8} (heq : log = pre ++ .sent (.data id length data) :: post) (ch : Mux.Channel)
    (hmax : advertised pre ≤ ch.maxIncomingPayload.toNat)
    (hwin : credit pre ≤ ch.myWindow.toNat + dataSent pre) :
    ∃ ch', ch.handleData ⟨.ofNat id, .ofNat length, data⟩ = .ok ch' := by
  obtain ⟨hlen, hsize, hcredit⟩ := h pre id length data post heq
  have hword : length < 2 ^ 32 := Nat.lt_of_le_of_lt (Nat.le_trans hsize hmax) ch.maxIncomingPayload.toNat_lt
  have hlength := toNat_ofNat_word hword
  refine ⟨{ ch with
    myWindow := ch.myWindow - UInt32.ofNat length, pending := ch.pending.write data }, ?_⟩
  rw [Mux.Channel.handleData, if_neg, if_neg, if_neg]
  · rw [UInt32.lt_iff_toNat_lt]
    dsimp only
    omega
  · dsimp only
    rw [hlen]
    simp
  · rw [gt_iff_lt, UInt32.lt_iff_toNat_lt]
    dsimp only
    omega

namespace Session

variable {s s' : Session} {o : Nat} {ok : Session → Act → Prop}

/-- The steps under which the protocol is kept: a write that is sent is within the peer's
MaxPacketSize and the credit that is left, and no read gets a byte, nor one that a Data
message wakes. The length of the data that comes in is the one in its length field, as in
every message that `decode` returns (`decode_fits`). -/
def Metered (s : Session) : Act → Prop
  | .write o buf =>
    (s.view o).ch.sentEOF = true ∨ (s.view o).ch.sentClose = true ∨
      (buf.length ≤ (s.view o).ch.maxRemotePayload ∧
        dataSent (s.view o).log + buf.length ≤ (s.view o).ch.remoteWin)
  | .read o len => Starved (s.view o).ch.readBuf len
  | .decoded (.ok (.data channelID length data)) =>
    length = data.length ∧
      ((s.getCh channelID).isSome = true → length ≤ (s.view channelID).ch.maxIncomingPayload →
        length ≤ (s.view channelID).ch.myWindow → (s.view channelID).ch.WakesNone data)
  | _ => True

theorem flows_enter {a : Act} {call : Call} (hok : Metered s a) (ht : s.target a = some (o, call))
    (hcall : call.For o) (h : Flows (s.view o)) : Flows ((s.view o).enter call) := by
  rcases target_cases ht with ⟨len, ha, rfl⟩ | ⟨buf, ha, rfl⟩ | ⟨ha, rfl⟩ | ⟨ha, rfl⟩ |
    ⟨i, t, ha, hmem, rfl⟩ | ⟨m, ha, hm, hg, rfl⟩
  · rw [ha] at hok
    exact h.steady (Channel.steady_read hok s.calls)
  · rw [ha] at hok
    exact h.write hok
  · exact h.steady (Channel.steady_closeWrite _)
  · obtain ⟨hsame, hkeeps, hsilent⟩ := Channel.same_close (s.view o).ch s.calls
    exact h.steady (hsame.steady (by simp [Call.entries]) hsilent hkeeps)
  · exact h.steady (Channel.steady_resume _ t)
  · refine h.steady (Channel.steady_handle s.calls hm fun id length data heq => ?_)
    subst heq
    have hid : id = o := hcall
    subst hid
    rw [ha] at hok
    obtain ⟨hlen, hparked⟩ := hok
    refine ⟨hlen, hparked ?_⟩
    rw [show s.getCh id = some id from hg]
    rfl

theorem Run.flows (run : Run step Metered new s) (ho : o < s.chans.length) : Flows (s.view o) := by
  refine view_invariant (I := Flows) ?_ ?_ ?_ ?_ ?_ run ho
  · intro s _
    refine ⟨?_, rfl, rfl, rfl, rfl, fun buf hb => ?_⟩
    · exact WithinCredit.nil.snoc fun id length data heq => by cases heq
    · cases hb
      rfl
  · intro s senderID windowSize maxPacketSize waiter _ _
    refine ⟨?_, rfl, ?_, rfl, ?_, fun buf hb => ?_⟩
    · refine WithinCredit.nil.silent fun id length data hmem => ?_
      simp at hmem
    · exact (Nat.add_zero windowSize).symm
    · cases waiter <;> rfl
    · cases hb
      rfl
  · intro s a o call _ hok ht hcall h
    exact flows_enter hok ht hcall h
  · intro s a o _ _ h
    have hshut : Flows ((s.view o).enter .shutdown) := h.steady (Channel.steady_shutdown _)
    rw [View.shut]
    split
    · exact ⟨hshut.written, hshut.maxSize, hshut.win, hshut.given, hshut.keeps, hshut.window⟩
    · exact ⟨h.written, h.maxSize, h.win, h.given, h.keeps, h.window⟩
  · intro s o p h
    refine ⟨h.written, h.maxSize, h.win, h.given, ?_, h.window⟩
    rw [handed_append, h.keeps]
    rfl

/-- **Flow control.** In every run whose steps meet the condition, every channel follows the
protocol: a Go peer accepts all it writes, and its window is fully open whenever nothing is
unread. -/
theorem flow_controlled (run : Run step Metered new s) (ho : o < s.chans.length) :
    FlowControlled (s.view o) ∧
    (∀ pre id length data post, (s.view o).log = pre ++ .sent (.data id length data) :: post →
      ∀ ch : Mux.Channel, advertised pre ≤ ch.maxIncomingPayload.toNat →
        credit pre ≤ ch.myWindow.toNat + dataSent pre →
        ∃ ch', ch.handleData ⟨.ofNat id, .ofNat length, data⟩ = .ok ch') ∧
    ((s.view o).ch.readBuf = some [] → (s.view o).ch.myWindow = channelWindowSize) := by
  have h := Run.flows run ho
  refine ⟨h.controlled, fun pre id length data post heq ch hmax hwin => ?_, fun hb => ?_⟩
  · exact h.written.accepted heq ch hmax hwin
  · exact h.window [] hb

instance (s : Session) : (a : Act) → Decidable (Metered s a)
  | .write .. => inferInstanceAs (Decidable (_ ∨ _ ∨ _))
  | .read o len => inferInstanceAs (Decidable (Starved (s.view o).ch.readBuf len))
  | .decoded (.ok (.data ..)) => inferInstanceAs (Decidable (_ ∧ _))
  | .decoded (.ok (.openMsg ..)) => .isTrue trivial
  | .decoded (.ok (.openConfirm ..)) => .isTrue trivial
  | .decoded (.ok (.openFailure _)) => .isTrue trivial
  | .decoded (.ok (.windowAdjust ..)) => .isTrue trivial
  | .decoded (.ok (.eof _)) => .isTrue trivial
  | .decoded (.ok (.close _)) => .isTrue trivial
  | .decoded (.error _) => .isTrue trivial
  | .openChannel => .isTrue trivial
  | .accept => .isTrue trivial
  | .closeSession => .isTrue trivial
  | .closeWrite _ => .isTrue trivial
  | .close _ => .isTrue trivial
  | .resume _ => .isTrue trivial

/-- Two writes that use up the window and its credit, while data comes in that nobody reads. -/
theorem flow_controlled_run :
    ∃ s, Run step Metered new s ∧
      (dataSent (s.view 0).log = 5 ∧ (s.view 0).ch.readBuf = some [9]) ∧ FlowControlled (s.view 0) := by
  obtain ⟨s, run, hs⟩ := Run.of_exec step Metered new
    [.decoded (.ok (.openMsg 7 3 32768)), .write 0 [1, 2, 3], .decoded (.ok (.windowAdjust 0 2)),
     .write 0 [4, 5], .read 0 2, .decoded (.ok (.data 0 1 [9]))]
    (fun s => decide (0 < s.chans.length ∧ dataSent (s.view 0).log = 5 ∧
      (s.view 0).ch.readBuf = some [9])) (by decide +kernel)
  simp only [decide_eq_true_eq] at hs
  obtain ⟨hlen, hs⟩ := hs
  exact ⟨s, run, hs, (flow_controlled run hlen).1⟩

/-- A byte is written to a peer that has no window, and a byte that is read is not given back. -/
theorem window_not_used :
    ∃ s, Run step anyStep new s ∧ 0 < s.chans.length ∧ ¬ WithinCredit (s.view 0).log ∧
      givenBack (s.view 0).log < handed (s.view 0).settled ∧ ¬ FlowControlled (s.view 0) := by
  obtain ⟨s, run, hs⟩ := Run.of_exec step anyStep new
    [.decoded (.ok (.openMsg 7 0 32768)), .write 0 [5], .decoded (.ok (.data 0 1 [9])), .read 0 1]
    (fun s => decide (0 < s.chans.length ∧ (s.view 0).log = [.got (.openMsg 7 0 32768),
      .sent (.openConfirm 7 0 channelWindowSize channelMaxPacket), .sent (.data 7 1 [5]),
      .got (.data 0 1 [9])] ∧ givenBack (s.view 0).log < handed (s.view 0).settled))
    (by decide +kernel)
  simp only [decide_eq_true_eq] at hs
  obtain ⟨hlen, hlog, hgiven⟩ := hs
  refine ⟨s, run, hlen, fun h => ?_, hgiven, fun h => ?_⟩
  · obtain ⟨-, -, hcredit⟩ := h [.got (.openMsg 7 0 32768),
      .sent (.openConfirm 7 0 channelWindowSize channelMaxPacket)] 7 1 [5] _ hlog
    cases hcredit
  · rw [h.given] at hgiven
    exact absurd hgiven (Nat.lt_irrefl _)

end Session

end Qtalk.Js
