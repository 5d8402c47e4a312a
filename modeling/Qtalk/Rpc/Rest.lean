import Qtalk.Rpc.Standing

/-!
# A service at rest

Where nothing goes on any more, every call has returned and every `Respond` with it
(`rest_iff_returned`). A goroutine that is left waits in a `Read` or a `Write` (`Stalled`), and so does
the one at the other end; both wait for bytes, or both for room, or what one of them waits for is
there.
-/

namespace Qtalk.Rpc.Peer
open Qtalk.Codec Qtalk.Lib Qtalk.Mux Program

variable {α V E ρ : Type}

section Stalled

variable {fails : Bool} {ch : Nat} {p₀ : Go ρ} {g : Goroutine ρ} {chn : Channel} {es : List Done}

/-- Nothing is waited for on a channel that is shut. -/
theorem Stalled.not_shut (h : Stalled ch chn g) (hp : chn.pending.closed = true)
    (hw : chn.remoteWin.closed = true) : False := by
  cases h with
  | reading _ _ _ _ hopen =>
    rw [hp] at hopen
    cases hopen
  | writing _ _ _ _ _ _ hopen =>
    rw [hw] at hopen
    cases hopen

/-- No credit is under way at a goroutine that waits. -/
theorem Stalled.settled (h : Stalled ch chn g) (hb : Books fails ch p₀ g chn es)
    (hr : chn.reads.length = g.place.reads) :
    (∀ w ∈ chn.writes, w.granted = none) ∧ chn.reads = [] ∧ chn.got = received ch es := by
  have hgot := hb.ledger.got
  cases h with
  | reading _ hplace =>
    have hdoing := hb.ledger.doing
    rw [hplace] at hdoing hr hgot
    rw [taken_idle, List.append_nil] at hgot
    refine ⟨?_, List.eq_nil_of_length_eq_zero hr, hgot⟩
    rw [hdoing.writes_idle]
    simp
  | writing _ hplace hw hg =>
    rw [hplace] at hr hgot
    rw [taken_writing, List.append_nil] at hgot
    refine ⟨?_, List.eq_nil_of_length_eq_zero hr, hgot⟩
    rw [hw]
    simpa using hg

/-- What a `Write` that waits has left is still to be sent. -/
theorem Books.waiting (hb : Books fails ch p₀ g chn es) {data : List UInt8}
    {k : Option SessionError → Go ρ} {w : WriteCall} (hp : g.prog = .op (.Write ch data) k)
    (hplace : g.place = .writing) (hw : chn.writes = [w]) (hopen : chn.remoteWin.closed = false) :
    ∃ es' q, Steps p₀ es' q ∧ FullReads fails ch es' ∧ Peer.received ch es' = Peer.received ch es ∧
      dataOf chn.sent ++ w.data = Peer.written ch es' := by
  have hsteps := hb.steps
  have hsent := hb.ledger.sent
  rw [hp] at hsteps
  rw [hp, hplace, handed_writing, SentOf, hw] at hsent
  refine ⟨es ++ [⟨.Write ch data, none⟩], k none, hsteps.snoc none,
    hb.full.append (fullReads_write data none), ?_, ?_⟩
  · rw [received_append, received_write, List.append_nil]
  · rw [written_append, written_write]
    rcases hsent with hsent | ⟨hcl, -⟩
    · simpa using hsent
    · rw [hopen] at hcl
      cases hcl

end Stalled

section Rest

variable [DecidableEq α] [Text α] (c : Codecs α V E) (ps : List (List α × Procedure α V E))

namespace Service

/-- A step that the service takes by itself: no new call is made, and no other goroutine of the
application uses a channel that a call has returned. -/
def Act.ongoing : Act ps → Bool
  | .call _ | .goesOn (.use ..) => false
  | _ => true

/-- Nothing goes on. -/
def AtRest (s : Service α V E) : Prop := ∀ a : Act ps, a.ongoing = true → s.next c ps a = none

/-- If nobody handles the path, the answer fits the window. It is written before the arguments are
read. -/
def Short (a : Asked α V) : Prop :=
  ∀ order, order.Perm ps → ∀ text, Rpc.Respond order (callOf a.path) = .missing text →
    (frames (response c (some (.error text)))).length ≤ channelWindowSize.toNat

variable {c ps} {s : Service α V E}

/-! ## Nothing goes on -/

theorem next_none {b : World.Act α V E}
    (h : (do return { s with world := ← s.world.next b } : Option (Service α V E)) = none) :
    s.world.next b = none := by
  cases hw : s.world.next b with
  | none => rfl
  | some w =>
    rw [hw] at h
    cases h

namespace AtRest

variable (h : AtRest c ps s)

include h

theorem caller {i : Nat} {g : Goroutine (Reply α V E)} (hg : s.world.calls[i]? = some g)
    (b : Session.Act) : g.next .left s.world.sys b = none := by
  have hnone := next_none (h (.goesOn (.caller i b)) rfl)
  cases hb : g.next .left s.world.sys b with
  | none => rfl
  | some r => simp [World.next, hg, hb] at hnone

theorem responder {r : Responding} (hr : r ∈ s.world.responds) (b : Session.Act) :
    r.go.next .right s.world.sys b = none := by
  obtain ⟨i, hi⟩ := List.getElem?_of_mem hr
  have hnone := next_none (h (.goesOn (.responder i b)) rfl)
  cases hb : r.go.next .right s.world.sys b with
  | none => rfl
  | some r' => simp [World.next, hi, hb] at hnone

theorem still : s.world.sys.Still := by
  refine fun x => ⟨?_, ?_⟩
  · have hnone := next_none (h (.goesOn (.loop x true)) rfl)
    cases hb : s.world.sys.next (.app x (.loop true)) with
    | none => rfl
    | some sys => simp [World.next, hb] at hnone
  · have hnone := next_none (h (.goesOn (.deliver x)) rfl)
    cases hb : s.world.sys.next (.deliver x) with
    | none => rfl
    | some sys => simp [World.next, hb] at hnone

theorem incoming (hs : s.Standing c ps) : (s.world.sys.sess .right).incoming = [] := by
  cases hin : (s.world.sys.sess .right).incoming with
  | nil => rfl
  | cons ch rest =>
    have hnone := next_none (b := .accept c (handlers c ps)) (h (.accept ps (.refl ps)) rfl)
    have hf := System.not_faulty hs.heard.inv.run .right
    have hacc : ∃ sys, s.world.sys.next (.app .right .accept) = some sys := by
      simp [System.next, System.reliable, Session.step, hf, Session.Act.writes, hin]
    obtain ⟨sys, hsys⟩ := hacc
    simp [World.next, hin, hsys, hs.serving] at hnone

/-- Nothing is in hand and nothing in flight. -/
theorem rested (hs : s.Standing c ps) (room : ∀ x, (s.world.sys.sess x).chanList.length + 1 < 2 ^ 32) :
    s.world.sys.Rested := by
  have run := hs.heard.inv.run
  refine System.Still.rested run h.still room fun x d hin => ?_
  cases x with
  | right =>
    rw [h.incoming hs]
    decide
  | left =>
    -- nobody opens channels to the left side
    exfalso
    obtain ⟨hd, hdir⟩ := (System.inv run .left).ops _ hin
    have hw := System.Wired.of_run run
    obtain ⟨e, hp⟩ := hw.accepted .left d hd hdir
    have hout := (hw.inbound_iff hp).mp hdir
    have hin' := hs.inbound e (hw.lt .left d e hp).2
    have heq : (s.world.sys.chan .right e).direction = .outbound := hout
    rw [hin'] at heq
    cases heq

end AtRest

/-! ## Two goroutines that wait for each other -/

section Pair

variable {a : Asked α V} {order : List (List α × Procedure α V E)} {y : System} {ch d : Nat}
  {g : Goroutine (Reply α V E)} {r : Goroutine Unit} {es es' : List Done}

/-- A call and a `Respond` at the two ends of a channel that is open, and nothing goes on. -/
structure Pair (c : Codecs α V E) (order : List (List α × Procedure α V E)) (a : Asked α V) (y : System)
    (ch d : Nat) (g : Goroutine (Reply α V E)) (r : Goroutine Unit) (es es' : List Done) : Prop where
  rested : y.Rested
  peer : y.peer .left ch = some d
  openLeft : (y.chan .left ch).sentClose = false
  openRight : (y.chan .right d).sentClose = false
  call : Books true ch (caller.exchange c a.path a.args a.reply ch) g (y.chan .left ch) es
  respond : Books false d (Respond c (handlers c order) d) r (y.chan .right d) es'
  readsLeft : (y.chan .left ch).reads.length = g.place.reads
  readsRight : (y.chan .right d).reads.length = r.place.reads

namespace Pair

variable (h : Pair c order a y ch d g r es es')

include h

theorem back : y.peer .right d = some ch := (System.Wired.of_run h.rested.run).symm .left ch d h.peer

theorem fresh : ch < (y.sess .left).fresh ∧ d < (y.sess .right).fresh :=
  (System.Wired.of_run h.rested.run).lt .left ch d h.peer

theorem unclosed : (y.chan .left ch).remoteWin.closed = false := by
  cases hcl : (y.chan .left ch).remoteWin.closed with
  | false => rfl
  | true =>
    have hopen := h.openLeft
    rw [(System.accounts h.rested.run h.fresh.1).spent.closed hcl] at hopen
    cases hopen

/-- What the call has sent the `Respond` has read, or can. -/
theorem streamRight : dataOf (y.chan .left ch).sent =
    (y.chan .right d).got ++ (y.chan .right d).pending.content := by
  have hh : (y.chan .right d).handled = (y.chan .left ch).sent := h.rested.handled h.peer
  rw [← hh]
  exact (System.accounts h.rested.run h.fresh.2).streamed

theorem streamLeft : dataOf (y.chan .right d).sent =
    (y.chan .left ch).got ++ (y.chan .left ch).pending.content := by
  have hh : (y.chan .left ch).handled = (y.chan .right d).sent := h.rested.handled h.back
  rw [← hh]
  exact (System.accounts h.rested.run h.fresh.1).streamed

variable (hr : Stalled d (y.chan .right d) r)

include hr

/-- What the `Respond` has read is from the front of the request. -/
theorem requested : received d es' <+: frames (a.request c) := by
  have hle : received d es' <+: dataOf (y.chan .left ch).sent := by
    rw [h.streamRight, ← (hr.settled h.respond h.readsRight).2.2]
    exact List.prefix_append _ _
  obtain ⟨es₁, q, hsteps, hfull, -, hsent⟩ := h.call.written
  exact (hle.trans hsent).trans (exchange_writes es₁ q hsteps hfull (List.prefix_refl _)).1

/-- How much of the request the `Respond` has read tells what it does. -/
theorem heeding (hcall : Faithful c.call) (hvalue : Faithful c.value) {o : Op} {k : o.Answer → Go Unit}
    (hp : r.prog = .op o k) :
    ∃ rest, frames (a.request c) = received d es' ++ rest ∧ Heeding c order a.path a.args o rest := by
  obtain ⟨rest, hrest⟩ := h.requested hr
  have hsteps := h.respond.steps
  rw [hp] at hsteps
  exact ⟨rest, hrest.symm, Respond_asks hcall hvalue es' o k rest hsteps h.respond.full hrest.symm⟩

/-- Both wait for bytes: the call has sent its request, and the `Respond` has read it. -/
theorem not_reading (hcall : Faithful c.call) (hvalue : Faithful c.value) {n m : Nat}
    {k : Except SessionError (List UInt8) → Go (Reply α V E)}
    {k' : Except SessionError (List UInt8) → Go Unit}
    (hp : g.prog = .op (.Read ch n) k) (hplace : g.place = .idle) (hp' : r.prog = .op (.Read d m) k')
    (hm : m ≠ 0) (hnone : (y.chan .right d).pending.content = []) : False := by
  have hsteps := h.call.steps
  rw [hp] at hsteps
  obtain ⟨hok, hwrote⟩ := exchange_sends hsteps trivial h.call.full
  have hsent := h.call.ledger.sent
  have hdoing := h.call.ledger.doing
  rw [hplace] at hsent hdoing
  rw [SentOf, handed_idle, List.append_nil, hdoing.writes_idle, hwrote, h.streamRight, hnone,
    (hr.settled h.respond h.readsRight).2.2] at hsent
  rcases hsent with hsent | ⟨hcl, -⟩
  · rw [List.flatMap_nil, List.append_nil, List.append_nil] at hsent
    obtain ⟨rest, hrest, hheeds⟩ := h.heeding hr hcall hvalue hp'
    have hnil : rest = [] := by
      rw [hsent, Asked.request] at hrest
      exact List.self_eq_append_right.mp hrest
    exact hm (hheeds hok hnil)
  · rw [h.unclosed] at hcl
    cases hcl

variable (hl : Stalled ch (y.chan .left ch) g)

include hl

theorem windowLeft : (y.chan .left ch).remoteWin.win.toNat + (y.chan .right d).pending.content.length =
    channelWindowSize.toNat :=
  h.rested.window h.peer h.openLeft h.openRight (hl.settled h.call h.readsLeft).1
    (hr.settled h.respond h.readsRight).2.1

theorem windowRight : (y.chan .right d).remoteWin.win.toNat + (y.chan .left ch).pending.content.length =
    channelWindowSize.toNat :=
  h.rested.window h.back h.openRight h.openLeft (hr.settled h.respond h.readsRight).1
    (hl.settled h.call h.readsLeft).2.1

/-- Both wait for room: the `Respond` has not read the request, so nobody handles it, and what it
sends has room. -/
theorem not_writing (hcall : Faithful c.call) (hvalue : Faithful c.value) (hshort : Short c ps a)
    (hperm : order.Perm ps) {data data' : List UInt8} {w w' : WriteCall}
    {k : Option SessionError → Go (Reply α V E)} {k' : Option SessionError → Go Unit}
    (hp : g.prog = .op (.Write ch data) k) (hplace : g.place = .writing)
    (hw : (y.chan .left ch).writes = [w]) (hd : w.data ≠ [])
    (hp' : r.prog = .op (.Write d data') k') (hplace' : r.place = .writing)
    (hw' : (y.chan .right d).writes = [w']) (hd' : w'.data ≠ [])
    (hopen' : (y.chan .right d).remoteWin.closed = false)
    (hwin' : (y.chan .right d).remoteWin.win = 0) : False := by
  obtain ⟨rest, hrest, hheeds⟩ := h.heeding hr hcall hvalue hp'
  rcases hheeds with rfl | ⟨text, hmissing⟩
  · -- the request is read, but the call has some of it left
    obtain ⟨es₁, q, hsteps, hfull, -, hsent⟩ := h.call.waiting hp hplace hw h.unclosed
    have hle := (exchange_writes es₁ q hsteps hfull (List.prefix_refl _)).1.length_le
    have hgot := congrArg List.length h.streamRight
    have hreq := congrArg List.length hrest
    have hpos := List.length_pos_iff.mpr hd
    rw [← hsent, List.length_append] at hle
    rw [List.length_append, (hr.settled h.respond h.readsRight).2.2] at hgot
    rw [List.append_nil, Asked.request] at hreq
    omega
  · -- what it has sent is less than the window, and all that is missing from it
    obtain ⟨es₁, q, hsteps, hfull, hrec, hsent⟩ := h.respond.waiting hp' hplace' hw' hopen'
    have hread : received d es₁ <+: frames (request c a.path a.args) := by
      rw [hrec]
      exact h.requested hr
    have hle := (Respond_speaks hcall hvalue order es₁ q hsteps hfull hread).1.length_le
    have hans : answerOf order a.path a.args = some (.error text) := by
      rw [answerOf, hmissing]
    have hfits := hshort order hperm text hmissing
    have hwindow := h.windowRight hr hl
    have hgot := congrArg List.length h.streamLeft
    have hpos := List.length_pos_iff.mpr hd'
    rw [← hsent, List.length_append, hans] at hle
    rw [List.length_append] at hgot
    rw [hwin', UInt32.toNat_zero] at hwindow
    omega

/-- They do not wait for each other. -/
theorem not_stalled (hcall : Faithful c.call) (hvalue : Faithful c.value) (hshort : Short c ps a)
    (hperm : order.Perm ps) : False := by
  have hsize : channelWindowSize.toNat ≠ 0 := by decide
  cases hl with
  | reading hp hplace hn hnone hopen =>
    cases hr with
    | reading hp' hplace' hn' hnone' hopen' =>
      exact h.not_reading (.reading hp' hplace' hn' hnone' hopen') hcall hvalue hp hplace hp' hn' hnone'
    | writing hp' hplace' hw' hg' hd' hwin' hopen' =>
      have hwindow := h.windowRight (.writing hp' hplace' hw' hg' hd' hwin' hopen')
        (.reading hp hplace hn hnone hopen)
      rw [hwin', hnone] at hwindow
      exact hsize hwindow.symm
  | writing hp hplace hw hg hd hwin hopen =>
    cases hr with
    | reading hp' hplace' hn' hnone' hopen' =>
      have hwindow := h.windowLeft (.reading hp' hplace' hn' hnone' hopen')
        (.writing hp hplace hw hg hd hwin hopen)
      rw [hwin, hnone'] at hwindow
      exact hsize hwindow.symm
    | writing hp' hplace' hw' hg' hd' hwin' hopen' =>
      exact h.not_writing (.writing hp' hplace' hw' hg' hd' hwin' hopen')
        (.writing hp hplace hw hg hd hwin hopen) hcall hvalue hshort hperm hp hplace hw hd hp'
        hplace' hw' hd' hopen' hwin'

end Pair

end Pair

/-! ## Everything has come back -/

namespace AtRest

variable {i : Nat} {g : Goroutine (Reply α V E)} {a : Asked α V} (h : AtRest c ps s)
  (hs : s.Standing c ps)

include h hs

/-- A `Respond` has returned, or it waits. -/
theorem respond_stalled {r : Responding} (hr : r ∈ s.world.responds) :
    r.go.Returned ∨ Stalled r.chan (s.world.sys.chan .right r.chan) r.go := by
  have run := hs.heard.inv.run
  obtain ⟨order, es, -, hb⟩ := hs.heard.inv.responds r hr
  exact hb.stalled (System.not_faulty run .right) ((System.Routed.of_run run).connected .right)
    (h.responder hr) (hs.heard.inv.sound.responds r hr).known (hs.heard.inv.held r hr) (hs.reading r hr)

variable (room : ∀ x, (s.world.sys.sess x).chanList.length + 1 < 2 ^ 32)

include room

/-- A call has opened its channel. -/
theorem call_opened (hg : s.world.calls[i]? = some g) (hst : Stands c a s.world.sys g)
    (hnot : ¬ g.Returned) :
    ∃ ch es, Books true ch (caller.exchange c a.path a.args a.reply ch) g
      (s.world.sys.chan .left ch) es := by
  have run := hs.heard.inv.run
  have hsound := hs.heard.inv.sound
  have hin := List.mem_of_getElem? hg
  have hf := System.not_faulty run .left
  have conn := (System.Routed.of_run run).connected .left
  have hstuck := h.caller hg
  cases hst.progress with
  | called hown hp hplace =>
    have hnone := stuck_next (b := .register) (o := .Open) hstuck hp (by rw [hplace]; rfl)
    obtain ⟨sys, hsys⟩ := System.register_next hf (room .left)
    rw [hsys] at hnone
    cases hnone
  | @opening ch hown hp hplace hu =>
    exfalso
    have hch : ch ∈ g.own := hown ▸ List.mem_singleton_self _
    have hlt := (hsound.calls g hin).known ch hch
    cases ho : (s.world.sys.chan .left ch).opening with
    | registered =>
      have hnone := stuck_call hf conn hstuck (.sendOpen true) (o := .Open) hp
        (by simp [Op.does, hplace]) hlt rfl
      simp [Channel.step, Channel.sendOpen, ho] at hnone
    | waiting =>
      have hnone := stuck_call hf conn hstuck .opened (o := .Open) hp
        (by simp [Op.does, hplace]) hlt rfl
      have hmsg := (h.rested hs room).confirmed hlt (hsound.outbound g hin ch hch) ho
      cases hm : (s.world.sys.chan .left ch).msg with
      | nil => exact hmsg hm
      | cons m rest => cases m <;> simp [Channel.step, Channel.opened, ho, hm] at hnone
    | returned => exact hst.opening ch hch hplace ho
  | exchanging hb => exact ⟨_, _, hb⟩
  | refused hown hp =>
    refine absurd ?_ hnot
    rw [Goroutine.Returned, hp]
    rfl

/-- The server has accepted the channel of a call. -/
theorem call_served (hg : s.world.calls[i]? = some g) {ch : Nat} (hch : ch ∈ g.own)
    (hplace : g.place ≠ .opening ch) :
    ∃ r ∈ s.world.responds, s.world.sys.peer .left ch = some r.chan := by
  have run := hs.heard.inv.run
  have hsound := hs.heard.inv.sound
  have hin := List.mem_of_getElem? hg
  have hrest := h.rested hs room
  have hlt := (hsound.calls g hin).known ch hch
  have hsent := Session.opensFirst (System.any_run run .left) ch hlt (hsound.outbound g hin ch hch)
    fun ho => hplace ((hsound.calls g hin).opening ch hch ho)
  obtain ⟨d, hp⟩ := System.has_peer hsound.run (System.Routed.of_run run).running hrest.wire hlt hsent
  have hd := ((System.Wired.of_run run).lt .left ch d hp).2
  have held : (s.world.sys.chan .right d).held = true := by
    rcases Session.offered (System.any_run run .right) d hd (hs.inbound d hd) with hop | hin | held
    · exact absurd hop hrest.not_in_hand
    · rw [h.incoming hs] at hin
      cases hin
    · exact held
  obtain ⟨r, hr, rfl⟩ := hsound.served d hd (hs.inbound d hd) held
  exact ⟨r, hr, hp⟩

variable (hcall : Faithful c.call) (hvalue : Faithful c.value)

include hcall hvalue

theorem call_returned (hshort : Short c ps a) (hg : s.world.calls[i]? = some g)
    (ha : s.asked[i]? = some a) : g.Returned := by
  by_contra hnot
  have run := hs.heard.inv.run
  have hrest := h.rested hs room
  have hst := ((hs.calls i g a hg ha).resolve_left fun hgone => hnot hgone.returned).2
  obtain ⟨ch, es, hb⟩ := h.call_opened hs room hg hst hnot
  have hch : ch ∈ g.own := hb.own ▸ List.mem_singleton_self _
  have hlt := (hs.heard.inv.sound.calls g (List.mem_of_getElem? hg)).known ch hch
  have hl : Stalled ch (s.world.sys.chan .left ch) g :=
    (hb.stalled (System.not_faulty run .left) ((System.Routed.of_run run).connected .left)
      (h.caller hg) hlt (hst.closes ch hch (hb.not_opening ch)).1 (hst.reads ch hch)).resolve_left hnot
  obtain ⟨r, hr, hp⟩ := h.call_served hs room hg hch (hb.not_opening ch)
  have hback := (System.Wired.of_run run).symm .left ch r.chan hp
  -- a `Respond` that has returned has closed the channel, and that would end the wait
  have hright : (s.world.sys.chan .right r.chan).sentClose = false := by
    cases hcl : (s.world.sys.chan .right r.chan).sentClose with
    | false => rfl
    | true =>
      obtain ⟨-, hpend, hwin⟩ := hrest.shut hback hcl
      exact (hl.not_shut hpend hwin).elim
  have hstall : Stalled r.chan (s.world.sys.chan .right r.chan) r.go := by
    refine (h.respond_stalled hs hr).resolve_left fun hret => ?_
    obtain ⟨u, hu⟩ := Option.isSome_iff_exists.mp hret
    rcases (hs.heard.inv.sound.responds r hr).closes with hpass | hcl
    · rw [Program.result_eq_some.mp hu] at hpass
      exact hpass
    · rw [hright] at hcl
      cases hcl
  have hleft : (s.world.sys.chan .left ch).sentClose = false := by
    cases hcl : (s.world.sys.chan .left ch).sentClose with
    | false => rfl
    | true =>
      obtain ⟨-, hpend, hwin⟩ := hrest.shut hp hcl
      exact (hstall.not_shut hpend hwin).elim
  obtain ⟨order, es', hperm, hb'⟩ := hs.heard.inv.responds r hr
  have pair : Pair c order a s.world.sys ch r.chan g r.go es es' :=
    ⟨hrest, hp, hleft, hright, hb, hb', hst.reads ch hch, hs.reading r hr⟩
  exact pair.not_stalled hstall hl hcall hvalue hshort hperm

theorem respond_returned (hshort : ∀ a ∈ s.asked, Short c ps a) {r : Responding}
    (hr : r ∈ s.world.responds) : r.go.Returned := by
  refine (h.respond_stalled hs hr).resolve_right fun hstall => ?_
  -- the call that has opened the other end has returned, and closed it
  obtain ⟨j, g, a, hg, ha, hto⟩ := hs.heard.respondsTo hcall hvalue hr
  obtain ⟨ch, hch, hp⟩ := hto.peer
  have hret := h.call_returned hs room hcall hvalue (hshort a (List.mem_of_getElem? ha)) hg ha
  have hgone := (hs.calls j g a hg ha).resolve_right fun hst => hst.1 hret
  obtain ⟨-, hpend, hwin⟩ := (h.rested hs room).shut hp (hgone.closed ch hch)
  exact hstall.not_shut hpend hwin

end AtRest

/-- What has come to rest stays so. -/
theorem Standing.atRest (hs : s.Standing c ps) (hq : s.world.Quiescent) : AtRest c ps s := by
  have run := hs.heard.inv.run
  have stays : ∀ b : World.Act α V E, s.world.next b = none →
      (do return { s with world := ← s.world.next b } : Option (Service α V E)) = none := by
    intro b hb
    rw [hb]
    rfl
  intro a ha
  cases a with
  | call q => cases ha
  | accept order hperm =>
    refine stays _ ?_
    rw [World.next, hq.incoming]
  | goesOn b =>
    cases b with
    | call | accept => rfl
    | use => cases ha
    | caller i b =>
      refine stays _ ?_
      cases hg : s.world.calls[i]? with
      | none => simp [World.next, hg]
      | some g => simp [World.next, hg, (hq.called g (List.mem_of_getElem? hg)).next]
    | responder i b =>
      refine stays _ ?_
      cases hr : s.world.responds[i]? with
      | none => simp [World.next, hr]
      | some r => simp [World.next, hr, (hq.responded r (List.mem_of_getElem? hr)).next]
    | handOut i =>
      refine stays _ ?_
      cases hr : s.world.responds[i]? with
      | none => simp [World.next, hr]
      | some r =>
        obtain ⟨u, hu⟩ := Option.isSome_iff_exists.mp (hq.responded r (List.mem_of_getElem? hr))
        simp [World.next, hr, Program.result_eq_some.mp hu]
    | acceptEOF =>
      refine stays _ ?_
      have hcl := ((Session.signalsOnce (System.any_run run .right)).running (hq.running .right)).2
      simp [World.next, System.next, System.reliable, Session.step, hcl]
    | loop x ok =>
      refine stays _ ?_
      simp [World.next, System.next, Session.step, hq.waits x ok]
    | deliver x =>
      refine stays _ ?_
      simp [World.next, System.next, hq.wire]

end Service

end Rest


/-- The two calls, what is left of them on the wire, and the deferred `Close` of each `Respond`. -/
def Service.twoCallsDone : List (Act increments) := List.flatten [
  twoCalls,
  goOn [.responder 1 (.call 1 .close), .responder 0 (.call 0 .close)],
  goOn (List.flatten (List.replicate 2 (.deliver .right :: List.replicate 6 (.loop .right true))))]

theorem shortCodecs_short (a : Asked UInt8 UInt8) : Service.Short shortCodecs increments a := by
  intro order _ text _
  have hsize : (channelWindowSize.toNat : Nat) = 2097152 := rfl
  rw [hsize]
  simp only [response, Option.toList_some, List.flatMap_cons, List.flatMap_nil, List.append_nil, headerOf,
    valueOf, shortCodecs]
  split
  · exact Nat.zero_le _
  · next h =>
    simp only [Option.getD_some, not_or, Nat.not_le] at h
    simp only [frames, frame, Option.elim_some, Option.toList_none, List.append_nil, List.length_append,
      beBytes_length, List.length_cons, List.length_nil]
    omega

end Qtalk.Rpc.Peer
