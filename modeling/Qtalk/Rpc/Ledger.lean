import Qtalk.Mux.WriteLoop
import Qtalk.Rpc.Exchange
import Qtalk.Rpc.NoLeak

/-!
# What a goroutine has done to its channel

A goroutine that alone uses a channel, and the operations it has done. The history of the
channel agrees with theirs: the `Read` calls came back with what was taken from the buffer, and
what was sent is what the `Write` calls were given, up to the first that failed. A step of the
goroutine keeps it so (`Ledger.step`), and so does everything the session loop does
(`Ledger.keep`).
-/

namespace Qtalk.Rpc.Peer
open Qtalk.Codec Qtalk.Lib Qtalk.Mux Program

variable {ρ : Type}

/-- The bytes a `Read` at this place has taken. -/
def Place.taken : Place → List UInt8
  | .reading bs => bs
  | _ => []

/-- The bytes of the `Write` at hand. -/
def handed : Place → Go ρ → List UInt8
  | .writing, .op (.Write _ data) _ => data
  | _, _ => []

@[simp] theorem taken_idle : Place.idle.taken = [] := rfl

@[simp] theorem taken_writing : Place.writing.taken = [] := rfl

@[simp] theorem taken_reading (bs : List UInt8) : (Place.reading bs).taken = bs := rfl

@[simp] theorem handed_idle (p : Go ρ) : handed .idle p = [] := rfl

@[simp] theorem handed_writing (ch : Nat) (data : List UInt8) (k : Option SessionError → Go ρ) :
    handed .writing (.op (.Write ch data) k) = data := rfl

@[simp] theorem handed_reading (bs : List UInt8) (p : Go ρ) : handed (.reading bs) p = [] := rfl

@[simp] theorem handed_ret (place : Place) (r : ρ) : handed place (.ret r) = [] := by
  cases place <;> rfl

/-- Where the goroutine stands with its channel, and the `Write` calls in progress there. -/
inductive Doing (ch : Nat) : Place → Go ρ → List WriteCall → Prop
  | idle (p : Go ρ) : Doing ch .idle p []
  | writing {data : List UInt8} {k : Option SessionError → Go ρ} (w : WriteCall) :
      Doing ch .writing (.op (.Write ch data) k) [w]
  | reading {n : Nat} {bs : List UInt8} {k : Except SessionError (List UInt8) → Go ρ}
      (h : bs.length = n) : Doing ch (.reading bs) (.op (.Read ch n) k) []

/-- What was sent of `out`: all but what the calls in progress have left, or a part, where the
window is closed and nothing more is granted. -/
def SentOf (out : List UInt8) (chn : Channel) : Prop :=
  dataOf chn.sent ++ chn.writes.flatMap WriteCall.data = out ∨
    (chn.remoteWin.closed = true ∧ (∀ w ∈ chn.writes, w.granted = none) ∧ dataOf chn.sent <+: out)

/-- The operations `es` and the channel they were done on. -/
structure Ledger (ch : Nat) (es : List Done) (p : Go ρ) (place : Place) (chn : Channel) : Prop where
  doing : Doing ch place p chn.writes
  unended : chn.sentEOF = false
  got : chn.got = received ch es ++ place.taken
  sent : SentOf (written ch es ++ handed place p) chn

/-- A `Read` in this step gives as many bytes as it is asked for, or it comes to the end where
that may be. -/
def full (fails : Bool) (y : System) (x : Side) : Session.Act → Bool
  | .call c (.read n) =>
    match (y.chan x c).pending.Read n with
    | .bytes bs _ => bs.length = n
    | .eof => fails
    | .wait => true
  | _ => true

/-! ## What others do -/

/-- The steps of calls that move data or end it. -/
def Moving : Channel.Step → Prop
  | .write _ | .reserve _ | .sendData _ _ | .read _ | .closeWrite => True
  | _ => False

/-- A change of a channel that leaves the data to its application. -/
structure Untouched (chn chn' : Channel) (ms : List Message) : Prop where
  sent : chn'.sent = chn.sent
  writes : chn'.writes = chn.writes
  got : chn'.got = chn.got
  data : dataOf ms = []
  unended : chn'.sentEOF = chn.sentEOF
  closed : chn.remoteWin.closed = true → chn'.remoteWin.closed = true

theorem Untouched.of_move {chn chn' : Channel} {who : Channel.Actor} {ms : List Message}
    (h : Channel.Move chn who ms chn') (hw : ∀ a, who = .call a → ¬ Moving a) :
    Untouched chn chn' ms := by
  cases h with
  | writeEOF | write | writeDone | refused | granted | sendData | sendFailed | readNone | read
  | closeWrite => exact absurd trivial (hw _ rfl)
  | closeWin => exact ⟨rfl, rfl, rfl, rfl, rfl, fun _ => rfl⟩
  | gotAdjust hadd | gotConfirm _ hadd =>
    exact ⟨rfl, rfl, rfl, rfl, rfl, fun hc => (Window.add_eq_some hadd).2.trans hc⟩
  | _ => exact ⟨rfl, rfl, rfl, rfl, rfl, id⟩

section Ledger

variable {fails : Bool} {ch : Nat} {es : List Done} {p : Go ρ} {place : Place}
  {chn chn' : Channel} {ms : List Message} {out : List UInt8}

theorem SentOf.le (h : SentOf out chn) : dataOf chn.sent <+: out := by
  rcases h with h | ⟨-, -, h⟩
  · exact ⟨_, h⟩
  · exact h

theorem Ledger.keep (h : Ledger ch es p place chn) (hu : Untouched chn chn' ms) :
    Ledger ch es p place (chn'.sends ms) := by
  have hsent : dataOf (chn'.sends ms).sent = dataOf chn.sent := by
    rw [Channel.sends, dataOf_append, hu.data, List.append_nil, hu.sent]
  refine ⟨?_, hu.unended.trans h.unended, hu.got.trans h.got, ?_⟩
  · show Doing ch place p chn'.writes
    rw [hu.writes]
    exact h.doing
  · show SentOf _ _
    rw [SentOf, hsent]
    show _ ++ chn'.writes.flatMap WriteCall.data = _ ∨
      (chn'.remoteWin.closed = true ∧ (∀ w ∈ chn'.writes, _) ∧ _)
    rw [hu.writes]
    exact h.sent.imp_right (And.imp_left hu.closed)

theorem written_append (es es' : List Done) : written ch (es ++ es') = written ch es ++ written ch es' :=
  List.flatMap_append

theorem received_append (es es' : List Done) : received ch (es ++ es') = received ch es ++ received ch es' :=
  List.flatMap_append

@[simp] theorem written_write (data : List UInt8) (r : Option SessionError) :
    written ch [⟨.Write ch data, r⟩] = data := by
  simp [written, Done.out]

@[simp] theorem written_read (c n : Nat) (r : Except SessionError (List UInt8)) :
    written ch [⟨.Read c n, r⟩] = [] := rfl

@[simp] theorem written_close (c : Nat) (r : Option SessionError) : written ch [⟨.Close c, r⟩] = [] := rfl

@[simp] theorem received_write (c : Nat) (data : List UInt8) (r : Option SessionError) :
    received ch [⟨.Write c data, r⟩] = [] := rfl

@[simp] theorem received_ok (n : Nat) (bs : List UInt8) : received ch [⟨.Read ch n, .ok bs⟩] = bs := by
  simp [received, Done.inp]

@[simp] theorem received_error (c n : Nat) (e : SessionError) : received ch [⟨.Read c n, .error e⟩] = [] := rfl

@[simp] theorem received_close (c : Nat) (r : Option SessionError) : received ch [⟨.Close c, r⟩] = [] := rfl

theorem Doing.writes_idle {ws : List WriteCall} (h : Doing ch .idle p ws) : ws = [] := by
  cases h
  rfl

theorem Doing.writes_ret {place : Place} {r : ρ} {ws : List WriteCall} (h : Doing ch place (.ret r) ws) :
    ws = [] := by
  cases h
  rfl

theorem Doing.writes_writing {c : Nat} {data : List UInt8} {k : Option SessionError → Go ρ}
    {ws : List WriteCall} (h : Doing ch .writing (.op (.Write c data) k) ws) : c = ch ∧ ∃ w, ws = [w] := by
  cases h with
  | writing w => exact ⟨rfl, w, rfl⟩

theorem Doing.writes_reading {c n : Nat} {bs : List UInt8} {k : Except SessionError (List UInt8) → Go ρ}
    {ws : List WriteCall} (h : Doing ch (.reading bs) (.op (.Read c n) k) ws) :
    c = ch ∧ bs.length = n ∧ ws = [] := by
  cases h with
  | reading h => exact ⟨rfl, h, rfl⟩

/-- What a step of operation `o` leaves: it goes on, or it has come back. -/
def Ledger.After (fails : Bool) (ch : Nat) (es : List Done) (chn : Channel) (o : Op)
    (k : o.Answer → Go ρ) : Place ⊕ o.Answer → Prop
  | .inl place => Ledger ch es (.op o k) place chn
  | .inr r => Ledger ch (es ++ [⟨o, r⟩]) (k r) .idle chn ∧ FullReads fails ch [⟨o, r⟩]

theorem fullReads_write (data : List UInt8) (r : Option SessionError) :
    FullReads fails ch [⟨.Write ch data, r⟩] := by
  intro n a ha
  cases List.mem_singleton.mp ha

section Write

variable {data : List UInt8} {k : Option SessionError → Go ρ}

/-- A `Write` that comes back has added its bytes to what is to be sent. -/
theorem Ledger.wrote (hw : chn'.writes = []) (hopen : chn'.sentEOF = false)
    (hgot : chn'.got = received ch es) (hs : SentOf (written ch es ++ data) chn')
    (r : Option SessionError) : Ledger.After fails ch es chn' (.Write ch data) k (.inr r) := by
  refine ⟨⟨hw ▸ .idle _, hopen, ?_, ?_⟩, fullReads_write data r⟩
  · rw [received_append, received_write, taken_idle, List.append_nil, List.append_nil, hgot]
  · rw [written_append, written_write, handed_idle, List.append_nil]
    exact hs

theorem Ledger.Write (h : Ledger ch es (.op (.Write ch data) k) .idle chn) :
    Ledger ch es (.op (.Write ch data) k) .writing (chn.Write data) := by
  have hw := h.doing.writes_idle
  have hsent := h.sent
  rw [SentOf, hw, handed_idle, List.append_nil] at hsent
  rw [Channel.Write, if_neg (by simp [h.unended]), hw]
  refine ⟨.writing _, h.unended, h.got, ?_⟩
  rw [handed_writing]
  obtain hs | ⟨hc, -, hs⟩ := hsent
  · left
    simp only [List.flatMap_nil, List.append_nil] at hs
    simp [hs]
  · exact .inr ⟨hc, by simp, hs.trans (List.prefix_append _ _)⟩

variable (fails) in
/-- A `reserve` grants, or it ends the call. -/
theorem Ledger.reserve (h : Ledger ch es (.op (.Write ch data) k) .writing chn) {j : Nat}
    (hr : chn.reserve j = some chn') : ∃ w, chn.writes[j]? = some w ∧
      Ledger.After fails ch es chn' (.Write ch data) k
        (if w.data = [] then .inr none
        else if chn.remoteWin.closed then .inr (some .eof)
        else .inl .writing) := by
  obtain ⟨-, w, hw⟩ := h.doing.writes_writing
  have hgot : chn.got = received ch es := h.got.trans (List.append_nil _)
  have hle := h.sent.le
  have hsent := h.sent
  rw [SentOf, hw, handed_writing] at hsent
  simp only [Channel.reserve, bind, Option.bind_eq_some_iff] at hr
  obtain ⟨w', hk, hr⟩ := hr
  have hj := hk
  rw [hw] at hj
  obtain ⟨hcons, rfl⟩ := eq_singleton (by simp) hj
  cases hcons
  refine ⟨w, hk, ?_⟩
  have hdone : (chn.writeReturn 0 w).writes = [] := by simp [Channel.writeReturn, hw]
  split at hr
  · cases hr
  · next hg =>
    split at hr
    · next hd =>
      cases hr
      rw [if_pos hd]
      apply Ledger.wrote hdone h.unended hgot
      obtain hs | ⟨hc, -, hs⟩ := hsent
      · left
        rw [hdone]
        show dataOf chn.sent ++ _ = _
        simpa [hd] using hs
      · exact .inr ⟨hc, by simp [hdone], hs⟩
    · next hd =>
      rw [if_neg hd]
      simp only [Option.bind_eq_some_iff] at hr
      obtain ⟨⟨space, closed, win⟩, hres, hr⟩ := hr
      obtain ⟨-, -, rfl, hclosed⟩ := Window.reserve_eq_some hres
      split at hr
      · next hc =>
        cases hr
        rw [if_pos hc]
        apply Ledger.wrote
        · simp [Channel.writeReturn, hw]
        · exact h.unended
        · exact hgot
        · refine .inr ⟨hclosed.trans hc, by simp [Channel.writeReturn, hw], hle⟩
      · next hc =>
        cases hr
        rw [if_neg hc]
        refine ⟨?_, h.unended, h.got, ?_⟩
        · simp only [hw, List.set_cons_zero]
          exact .writing _
        · rw [handed_writing]
          obtain hs | ⟨hc', -⟩ := hsent
          · exact .inl (by simpa [hw] using hs)
          · exact absurd hc' hc

/-- A packet that is sent takes its bytes from the call. -/
theorem Ledger.sendData (h : Ledger ch es (.op (.Write ch data) k) .writing chn) {j : Nat}
    {r : Channel × List Message} (hr : chn.sendData j true = some r) :
    Ledger ch es (.op (.Write ch data) k) .writing (r.1.sends r.2) := by
  obtain ⟨-, w, hw⟩ := h.doing.writes_writing
  have hsent := h.sent
  rw [SentOf, hw, handed_writing] at hsent
  simp only [Channel.sendData, bind, Option.bind_eq_some_iff, if_true] at hr
  obtain ⟨w', hk, space, hg, hr⟩ := hr
  rw [hw] at hk
  obtain ⟨hcons, rfl⟩ := eq_singleton (by simp) hk
  cases hcons
  cases hr
  refine ⟨?_, h.unended, h.got, ?_⟩
  · simp only [Channel.sends, hw, List.set_cons_zero]
    exact .writing _
  · rw [handed_writing]
    obtain hs | ⟨-, hnone, -⟩ := hsent
    · left
      simp only [Channel.sends, hw, List.set_cons_zero, dataOf_append, dataOf_cons, dataOf_nil, body,
        List.flatMap_cons, List.flatMap_nil, List.append_nil] at hs ⊢
      rw [List.append_assoc, ← hs, Writing.take_append_drop_take]
    · rw [hnone w (List.mem_singleton_self w)] at hg
      cases hg

end Write

variable {x : Side} {y y' : System} {b : Session.Act} {o : Op} {k : o.Answer → Go ρ}

section Read

variable {n : Nat} {k : Except SessionError (List UInt8) → Go ρ}

/-- A `Read` that comes back has been given what was taken from the buffer. -/
theorem Ledger.came (hw : chn.writes = []) (hopen : chn.sentEOF = false)
    (hs : SentOf (written ch es) chn) {r : Except SessionError (List UInt8)}
    (hgot : chn.got = received ch es ++ received ch [⟨.Read ch n, r⟩])
    (hf : FullReads fails ch [⟨.Read ch n, r⟩]) : Ledger.After fails ch es chn (.Read ch n) k (.inr r) := by
  refine ⟨⟨hw ▸ .idle _, hopen, ?_, ?_⟩, hf⟩
  · rw [received_append, taken_idle, List.append_nil, hgot]
  · rw [written_append, written_read, handed_idle, List.append_nil, List.append_nil]
    exact hs

theorem fullReads_ok {bs : List UInt8} (h : bs.length = n) : FullReads fails ch [⟨.Read ch n, .ok bs⟩] := by
  intro m a ha
  cases List.mem_singleton.mp ha
  exact .inr ⟨bs, rfl, h⟩

theorem fullReads_error (e : SessionError) : FullReads true ch [⟨.Read ch n, .error e⟩] := by
  intro m a ha
  cases List.mem_singleton.mp ha
  exact .inl ⟨rfl, e, rfl⟩

theorem Ledger.Read (h : Ledger ch es (.op (.Read ch n) k) .idle (y.chan x ch))
    (hread : (y.chan x ch).Read n = some chn') (hf : full fails y x (.call ch (.read n)) = true) :
    Ledger.After fails ch es chn' (.Read ch n) k ((Op.Read ch n).after x y .idle (.call ch (.read n))) := by
  have hw := h.doing.writes_idle
  have hsent := h.sent
  rw [handed_idle, List.append_nil] at hsent
  have hgot := h.got
  rw [taken_idle, List.append_nil] at hgot
  unfold Channel.Read at hread
  simp only [Op.after]
  split at hread
  · next b' hb =>
    cases hread
    simp only [full, hb, decide_eq_true_eq] at hf
    rw [hb]
    apply Ledger.came
    · exact hw
    · exact h.unended
    · exact hsent
    · rw [received_ok, List.append_nil]
      exact hgot
    · exact fullReads_ok hf
  · next bs b' hne hb =>
    cases hread
    simp only [full, hb, decide_eq_true_eq] at hf
    rw [hb]
    cases bs with
    | nil => exact absurd rfl hne
    | cons a bs =>
      refine ⟨?_, h.unended, ?_, ?_⟩
      · simp only [hw]
        exact .reading hf
      · rw [taken_reading, ← hgot]
      · rw [handed_reading, List.append_nil]
        exact hsent
  · next hb =>
    cases hread
    simp only [full, hb] at hf
    subst hf
    rw [hb]
    apply Ledger.came hw h.unended hsent
    · rw [received_error, List.append_nil]
      exact hgot
    · exact fullReads_error _
  · cases hread

/-- Behind the send of its credit a `Read` comes back. -/
theorem Ledger.read {bs : List UInt8} (h : Ledger ch es (.op (.Read ch n) k) (.reading bs) chn) :
    Ledger.After fails ch es chn (.Read ch n) k (.inr (.ok bs)) := by
  obtain ⟨-, hlen, hw⟩ := h.doing.writes_reading
  have hsent := h.sent
  rw [handed_reading, List.append_nil] at hsent
  apply Ledger.came hw h.unended hsent
  · rw [received_ok]
    exact h.got
  · exact fullReads_ok hlen

end Read

/-- A step of a call that moves no data. -/
theorem Ledger.keep_call {st : Channel.Step} (h : Ledger ch es p place (y.chan x ch))
    (hn : y.next (.app x (.call ch st)) = some y') (hst : ¬ Moving st) :
    Ledger ch es p place (y'.chan x ch) := by
  obtain ⟨-, r, hr, heq⟩ := System.call_step hn
  rw [heq]
  refine h.keep (.of_move (.of_step hr) fun a ha => ?_)
  cases ha
  exact hst

theorem Ledger.after (h : Ledger ch es (.op o k) place (y.chan x ch)) (ho : o ≠ .Open)
    (hs : Stage [ch] place b o) (hn : y.next (.app x b) = some y')
    (conn : (y.sess x).connClosed = false) (hf : full fails y x b = true) :
    Ledger.After fails ch es (y'.chan x ch) o k (o.after x y place b) := by
  cases hs with
  | register | sendOpen | opened => exact absurd rfl ho
  | @write c data hown =>
    obtain rfl := List.mem_singleton.mp hown
    obtain ⟨-, r, hr, heq⟩ := System.call_step hn
    simp only [Channel.step] at hr
    split at hr
    · cases hr
      rw [heq, Channel.sends_nil]
      simp only [Op.after, h.unended]
      exact h.Write
    · cases hr
  | reserve j =>
    obtain ⟨rfl, -⟩ := h.doing.writes_writing
    obtain ⟨-, r, hr, heq⟩ := System.call_step hn
    simp only [Channel.step, bind, Option.bind_eq_some_iff] at hr
    obtain ⟨chn', hres, hr⟩ := hr
    cases hr
    rw [heq, Channel.sends_nil]
    obtain ⟨w, hw, hafter⟩ := h.reserve fails hres
    simp only [Op.after, hw]
    exact hafter
  | sendData j ok =>
    obtain ⟨rfl, -⟩ := h.doing.writes_writing
    obtain ⟨-, r, hr, heq⟩ := System.call_step hn
    -- a send fails only on a closed connection
    obtain rfl : ok = true := by
      cases System.Moves.of_next hn with
      | app ha => simpa [System.reliable, conn] using ha
    rw [heq]
    exact h.sendData hr
  | @read c n hown =>
    obtain rfl := List.mem_singleton.mp hown
    obtain ⟨-, r, hr, heq⟩ := System.call_step hn
    simp only [Channel.step] at hr
    split at hr
    · simp only [bind, Option.bind_eq_some_iff] at hr
      obtain ⟨chn', hread, hr⟩ := hr
      cases hr
      rw [heq, Channel.sends_nil]
      exact h.Read hread hf
    · cases hr
  | credit bs j =>
    obtain ⟨rfl, -⟩ := h.doing.writes_reading
    exact h.keep_call hn id
  | sendAdjust bs j =>
    obtain ⟨rfl, -⟩ := h.doing.writes_reading
    have hkeep := h.keep_call hn id
    simp only [Op.after, conn, Bool.false_eq_true, and_false, if_false]
    exact hkeep.read
  | @close c hown =>
    obtain rfl := List.mem_singleton.mp hown
    have hkeep := h.keep_call hn id
    refine ⟨⟨?_, hkeep.unended, ?_, ?_⟩, ?_⟩
    · rw [hkeep.doing.writes_idle]
      exact .idle _
    · rw [received_append, received_close, List.append_nil]
      exact hkeep.got
    · rw [written_append, written_close, List.append_nil]
      exact hkeep.sent
    · intro m a ha
      cases List.mem_singleton.mp ha

end Ledger

/-! ## Goroutines -/

/-- The operation works on the channel. -/
def On (ch : Nat) : Op → Prop
  | .Write c _ | .Read c _ | .Close c => c = ch
  | .Open | .handOut _ => False

theorem On.ne_open {ch : Nat} {o : Op} (h : On ch o) : o ≠ .Open := by
  rintro rfl
  exact h

/-- The goroutine has done the operations `es` of `p₀`, on the one channel it has. -/
structure Books (fails : Bool) (ch : Nat) (p₀ : Go ρ) (g : Goroutine ρ) (chn : Channel)
    (es : List Done) : Prop where
  own : g.own = [ch]
  on : p₀.Only (On ch)
  steps : Program.Steps p₀ es g.prog
  full : FullReads fails ch es
  ledger : Ledger ch es g.prog g.place chn

section Books

variable {fails : Bool} {ch : Nat} {p₀ : Go ρ} {g g' : Goroutine ρ} {chn chn' : Channel}
  {es : List Done} {ms : List Message} {x : Side} {y y' : System} {b : Session.Act}

theorem FullReads.append {es' : List Done} (h : FullReads fails ch es) (h' : FullReads fails ch es') :
    FullReads fails ch (es ++ es') := by
  intro n a ha
  rcases List.mem_append.mp ha with ha | ha
  · exact h n a ha
  · exact h' n a ha

theorem Books.keep (h : Books fails ch p₀ g chn es) (hu : Untouched chn chn' ms) :
    Books fails ch p₀ g (chn'.sends ms) es :=
  ⟨h.own, h.on, h.steps, h.full, h.ledger.keep hu⟩

/-- The goroutine works on its channel. -/
theorem Doing.call {place : Place} {o : Op} {k : o.Answer → Go ρ} {ws : List WriteCall}
    (h : Doing ch place (.op o k) ws) (ho : On ch o) (hs : Stage [ch] place b o) :
    ∃ st, b = .call ch st := by
  cases hs with
  | register | sendOpen | opened => exact absurd rfl ho.ne_open
  | write hown | read hown | close hown => exact ⟨_, by rw [List.mem_singleton.mp hown]⟩
  | reserve j => exact ⟨_, by rw [h.writes_writing.1]⟩
  | sendData j ok => exact ⟨_, by rw [h.writes_writing.1]⟩
  | credit bs j => exact ⟨_, by rw [h.writes_reading.1]⟩
  | sendAdjust bs j => exact ⟨_, by rw [h.writes_reading.1]⟩

theorem Books.step (h : Books fails ch p₀ g (y.chan x ch) es) (hs : g.Steps x y b g' y')
    (conn : (y.sess x).connClosed = false) (hf : Peer.full fails y x b = true) :
    (∃ st, b = .call ch st) ∧ ∃ es', Books fails ch p₀ g' (y'.chan x ch) es' := by
  have hown := h.own
  have hl := h.ledger
  have hsteps := h.steps
  have hon := h.on.steps h.steps
  cases hs with
  | @goesOn o k _ place hp hst hn ha =>
    rw [hp] at hl hon
    rw [hown] at hst
    obtain ⟨st, rfl⟩ := hl.doing.call hon.1 hst
    have hafter := hl.after hon.1.ne_open hst hn conn hf
    rw [ha] at hafter
    refine ⟨⟨st, rfl⟩, es, ?_, h.on, hp ▸ hsteps, h.full, hafter⟩
    rw [hown]
    rfl
  | @answered o k _ r hp hst hn ha =>
    rw [hp] at hl hon hsteps
    rw [hown] at hst
    obtain ⟨st, rfl⟩ := hl.doing.call hon.1 hst
    have hafter := hl.after hon.1.ne_open hst hn conn hf
    rw [ha] at hafter
    refine ⟨⟨st, rfl⟩, es ++ [⟨o, r⟩], ?_, h.on, hsteps.snoc r, h.full.append hafter.2, hafter.1⟩
    rw [hown]
    rfl

/-- What was read is from the front of what the channel has got. -/
theorem Books.received (h : Books fails ch p₀ g chn es) : Peer.received ch es <+: chn.got := by
  rw [h.ledger.got]
  exact List.prefix_append _ _

/-- What was sent is what some way through the program writes that has read the same. -/
theorem Books.written (h : Books fails ch p₀ g chn es) : ∃ es' q, Program.Steps p₀ es' q ∧
    FullReads fails ch es' ∧ Peer.received ch es' = Peer.received ch es ∧
      dataOf chn.sent <+: Peer.written ch es' := by
  obtain ⟨-, -, hsteps, hfull, hl⟩ := h
  have hle := hl.sent.le
  have hd := hl.doing
  generalize g.place = place at hd hle
  generalize g.prog = p at hd hle hsteps
  generalize chn.writes = ws at hd
  cases hd with
  | idle p => exact ⟨es, p, hsteps, hfull, rfl, by simpa using hle⟩
  | @writing data k w =>
    refine ⟨es ++ [⟨.Write ch data, none⟩], k none, hsteps.snoc none, hfull.append (fullReads_write data none), ?_, ?_⟩
    · rw [received_append, received_write, List.append_nil]
    · rw [written_append, written_write]
      exact hle
  | reading hb => exact ⟨es, _, hsteps, hfull, rfl, by simpa using hle⟩

end Books

/-! ## Channels nobody has used -/

structure Unused (chn : Channel) : Prop where
  writes : chn.writes = []
  unended : chn.sentEOF = false
  got : chn.got = []
  sent : dataOf chn.sent = []

/-- The step leaves the data of channel `c` of side `x` to its application. -/
def Spares (y y' : System) (x : Side) (c : Nat) : Prop :=
  ∃ chn' ms, Untouched (y.chan x c) chn' ms ∧ y'.chan x c = chn'.sends ms

section Unused

variable {chn chn' : Channel} {ms : List Message} {x : Side} {y y' : System} {c : Nat}

theorem Unused.outbound (id : UInt32) : Unused (Session.outboundChannel id) := ⟨rfl, rfl, rfl, rfl⟩

theorem Unused.inbound (m : OpenMessage) (id : UInt32) : Unused (Session.inboundChannel m id) :=
  ⟨rfl, rfl, rfl, rfl⟩

theorem Unused.keep (h : Unused (y.chan x c)) (hs : Spares y y' x c) : Unused (y'.chan x c) := by
  obtain ⟨chn', ms, hu, heq⟩ := hs
  rw [heq]
  refine ⟨hu.writes.trans h.writes, hu.unended.trans h.unended, hu.got.trans h.got, ?_⟩
  rw [Channel.sends, dataOf_append, hu.data, hu.sent, h.sent, List.append_nil]

theorem Unused.ledger (h : Unused chn) (p : Go ρ) : Ledger c [] p .idle chn := by
  refine ⟨h.writes ▸ .idle p, h.unended, h.got, .inl ?_⟩
  rw [h.sent, h.writes]
  rfl

/-- What a step of the sessions does to a channel that no call is in the step. -/
theorem spares {a : System.Act} (hm : System.Moves y a y') (hi : (y.sess x).Inv)
    (hc : c < (y.sess x).fresh) (ha : ∀ st, a = .app x (.call c st) → ¬ Moving st) : Spares y y' x c := by
  obtain ⟨out, -, hat⟩ := hm.side x
  rcases hat.changes hi hc with heq | ⟨b, hch, hb⟩
  · exact ⟨y.chan x c, [], ⟨rfl, rfl, rfl, rfl, rfl, id⟩, by rw [heq, Channel.sends_nil]⟩
  · cases hch with
    | none hh _ => exact ⟨y.chan x c, [], ⟨rfl, rfl, rfl, rfl, rfl, id⟩, by rw [Channel.sends_nil]; exact hh⟩
    | @move who ms chn' hby hmove hh _ =>
      refine ⟨chn', ms, .of_move hmove fun st hst => ?_, hh⟩
      subst hst
      cases hby
      rcases hb with rfl | ⟨m, hm'⟩
      · exact ha st rfl
      · cases hm'

theorem Books.spared {fails : Bool} {p₀ : Go ρ} {g : Goroutine ρ} {es : List Done}
    (h : Books fails c p₀ g (y.chan x c) es) (hs : Spares y y' x c) :
    Books fails c p₀ g (y'.chan x c) es := by
  obtain ⟨chn', ms, hu, heq⟩ := hs
  rw [heq]
  exact h.keep hu

end Unused

end Qtalk.Rpc.Peer
