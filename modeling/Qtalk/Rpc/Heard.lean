import Qtalk.Rpc.Answered

/-!
# Every `Respond` is for one call

The other side of `calls_answered`. What a call writes on its channel is its request, and an
application that has been given the channel with the response writes behind that (`Requested`). A
channel that the server accepts is the other end of one that a call has opened, so each `Respond`
reads the request of one call, no two of them of the same, and writes nothing but the answer to it
(`answered_once`).
-/

namespace Qtalk.Rpc.Peer
open Qtalk.Codec Qtalk.Lib Qtalk.Mux

variable {α V E : Type}

/-! ## What a call writes -/

section Writes

variable {c : Codecs α V E} {path : List α} {args : Option V} {reply : Bool} {ch : Nat} {es : List Done}

/-- A call that waits for the response, or has returned it. -/
def AfterRequest : Go (Reply α V E) → Prop
  | .ret r => r.1 ≠ none
  | .op (.Read _ _) _ => True
  | .op _ _ => False

theorem Encode_steps {W : Type} {f : Format W E} {v : W} {g : Option (CallError α E) → Go (Reply α V E)}
    {q : Go (Reply α V E)} (h : Program.Steps (Peer.Encode f ch v >>= g) es q) (hq : AfterRequest q) :
    (∃ e, f.encode v = .error e ∧ Program.Steps (g (some (.codec e))) es q) ∨
      ∃ b a es', f.encode v = .ok b ∧ es = ⟨.Write ch (frame b), a⟩ :: es' ∧
        Program.Steps (g (a.map .session)) es' q := by
  rw [Peer.Encode] at h
  cases hv : f.encode v with
  | error e =>
    rw [hv] at h
    exact .inl ⟨e, rfl, h⟩
  | ok b =>
    rw [hv] at h
    rcases Program.Steps.op_cases h with ⟨-, rfl⟩ | ⟨a, es', rfl, h'⟩
    · exact hq.elim
    · exact .inr ⟨b, a, es', rfl, rfl, h'⟩

/-- A call that fails on its request waits for no response. -/
theorem fails_before {e : CallError α E} {q : Go (Reply α V E)}
    (h : Program.Steps (Close ch >>= fun _ => pure (none, some e)) es q) : ¬ AfterRequest q := by
  rcases Program.Steps.op_cases h with ⟨-, rfl⟩ | ⟨a, es', rfl, h'⟩
  · exact id
  · obtain ⟨-, rfl⟩ := h'.ret_cases
    exact fun hq => hq rfl

variable [Text α]

/-- A call has written its request when it waits for the response. -/
theorem exchange_sends {q : Go (Reply α V E)}
    (h : Program.Steps (caller.exchange c path args reply ch) es q) (hq : AfterRequest q)
    (full : FullReads true ch es) :
    (∀ x ∈ request c path args, ∃ b, x = .ok b) ∧ written ch es = frames (request c path args) := by
  have hle := (exchange_writes es _ h full (List.prefix_refl _)).1
  rcases Encode_steps h hq with ⟨e, -, h1⟩ | ⟨b, a, es₁, hb, rfl, h1⟩
  · exact absurd hq (fails_before h1)
  cases a with
  | some e => exact absurd hq (fails_before h1)
  | none =>
    rcases Encode_steps h1 hq with ⟨e, -, h2⟩ | ⟨b', a, es₂, hb', rfl, h2⟩
    · exact absurd hq (fails_before h2)
    cases a with
    | some e => exact absurd hq (fails_before h2)
    | none =>
      have hreq : request c path args = [.ok b, .ok b'] := by
        rw [request, ← hb, ← hb']
        rfl
      refine ⟨?_, hle.eq_of_length_le ?_⟩
      · rw [hreq]
        simp
      · rw [hreq]
        simp [frames, written, Done.out]

end Writes

/-- The request of a call. -/
def Asked.request (c : Codecs α V E) (a : Asked α V) : List (Except E (List UInt8)) :=
  Peer.request c a.path a.args

/-- The request has been sent. -/
structure Complete (c : Codecs α V E) (a : Asked α V) (chn : Channel) : Prop where
  encoded : ∀ x ∈ a.request c, ∃ b, x = .ok b
  sent : frames (a.request c) <+: dataOf chn.sent

/-- A part of it has been sent, and no more will be. -/
structure Broken (c : Codecs α V E) (a : Asked α V) (chn : Channel) : Prop where
  closed : chn.remoteWin.closed = true
  ungranted : ∀ w ∈ chn.writes, w.granted = none
  sent : dataOf chn.sent <+: frames (a.request c)

/-- What is sent on the channel of a call is its request, as far as it got, or has that in front. -/
def Requested (c : Codecs α V E) (a : Asked α V) (chn : Channel) : Prop :=
  dataOf chn.sent <+: frames (a.request c) ∨ Complete c a chn

/-- And so it stays, whatever the application does. -/
def Given (c : Codecs α V E) (a : Asked α V) (chn : Channel) : Prop := Broken c a chn ∨ Complete c a chn

section Given

variable {c : Codecs α V E} {a : Asked α V} {chn chn' : Channel}

theorem Given.requested (h : Given c a chn) : Requested c a chn := h.imp_left Broken.sent

/-- A closed window grants nothing. -/
theorem Broken.move {who : Channel.Actor} {ms : List Message} (h : Broken c a chn)
    (hm : Channel.Move chn who ms chn') : Broken c a (chn'.sends ms) := by
  have settled : chn.Settled := h.ungranted
  -- the steps that send no data
  have quiet : ∀ {chn' : Channel} {ms}, chn'.sent = chn.sent → dataOf ms = [] →
      chn'.remoteWin.closed = true → (∀ w ∈ chn'.writes, w.granted = none) → Broken c a (chn'.sends ms) := by
    intro chn' ms hsent hms hcl hw
    refine ⟨hcl, hw, ?_⟩
    rw [Channel.sends, dataOf_append, hms, List.append_nil, hsent]
    exact h.sent
  cases hm with
  | granted _ _ hr =>
    obtain ⟨-, -, hcl, -⟩ := Window.reserve_eq_some hr
    rw [h.closed] at hcl
    cases hcl
  | sendData hk hg | sendFailed hk hg => exact absurd hg (settled.not_granted hk)
  | write => exact quiet rfl rfl h.closed fun w hw => settled.append hw
  | writeDone => exact quiet rfl rfl h.closed fun w hw => settled.eraseIdx hw
  | refused _ _ hr =>
    refine quiet rfl rfl ?_ fun w hw => settled.eraseIdx hw
    exact (Window.reserve_eq_some hr).2.2.2.trans h.closed
  | closeWin => exact quiet rfl rfl rfl settled
  | gotAdjust hadd | gotConfirm _ hadd =>
    exact quiet rfl rfl ((Window.add_eq_some hadd).2.trans h.closed) settled
  | _ => exact quiet rfl rfl h.closed settled

variable {x : Side} {y y' : System} {ch : Nat} {act : System.Act}

/-- So it stays in every step of the sessions. -/
theorem Given.keep (h : Given c a (y.chan x ch)) (hm : System.Moves y act y') (hi : (y.sess x).Inv)
    (hc : ch < (y.sess x).fresh) : Given c a (y'.chan x ch) := by
  rcases h with h | h
  · obtain ⟨out, -, hat⟩ := hm.side x
    rcases hat.changes hi hc with heq | ⟨b, hch, -⟩
    · exact .inl (heq ▸ h)
    · cases hch with
      | none hh _ =>
        have heq : y'.chan x ch = y.chan x ch := hh
        exact .inl (heq ▸ h)
      | @move _ ms chn _ hmove hh _ =>
        have heq : y'.chan x ch = chn.sends ms := hh
        exact .inl (heq ▸ h.move hmove)
  · exact .inr ⟨h.encoded, h.sent.trans (dataOf_mono (hm.extends hi hc).sent)⟩

theorem Requested.spared (h : Requested c a (y.chan x ch)) (hs : Spares y y' x ch) :
    Requested c a (y'.chan x ch) := by
  obtain ⟨chn, ms, hu, heq⟩ := hs
  have hsent : dataOf (y'.chan x ch).sent = dataOf (y.chan x ch).sent := by
    rw [heq, Channel.sends, dataOf_append, hu.data, List.append_nil, hu.sent]
  refine h.imp (fun hle => ?_) fun hc => ⟨hc.encoded, ?_⟩
  · rw [hsent]
    exact hle
  · rw [hsent]
    exact hc.sent

/-- In front stands the request; something follows it only if it is complete. -/
theorem Requested.front (h : Requested c a chn) : ∃ more, (∀ e, .error e ∈ a.request c → more = []) ∧
    dataOf chn.sent <+: frames (a.request c) ++ more := by
  rcases h with h | ⟨henc, more, hmore⟩
  · exact ⟨[], fun _ _ => rfl, by rwa [List.append_nil]⟩
  · refine ⟨more, fun e he => ?_, by rw [hmore]⟩
    obtain ⟨b, hb⟩ := henc _ he
    cases hb

end Given

/-! ## What is sent for a call -/

section Heeds

variable {a : Asked α V} {y y' : System} {g : Goroutine (Reply α V E)} {act : System.Act} {ch : Nat}

theorem Goroutine.channel_op {o : Op} {k : o.Answer → Go (Reply α V E)} (hp : g.prog = .op o k) :
    g.channel ≠ some ch := by
  rw [Goroutine.channel, hp]
  exact fun h => by cases h

variable (c : Codecs α V E)

/-- What the channel of a call has to do with its request. -/
structure Heeds (a : Asked α V) (y : System) (g : Goroutine (Reply α V E)) : Prop where
  /-- a call opens one channel -/
  single : ∀ ch ∈ g.own, ∀ ch' ∈ g.own, ch = ch'
  requested : ∀ ch ∈ g.own, Requested c a (y.chan .left ch)
  given : ∀ ch, g.channel = some ch → ch ∈ g.own ∧ Given c a (y.chan .left ch)

variable {c}

theorem Heeds.unopened (hown : g.own = []) (hnone : ∀ ch, g.channel ≠ some ch) : Heeds c a y g := by
  refine ⟨?_, ?_, fun ch hch => absurd hch (hnone ch)⟩
  · simp [hown]
  · simp [hown]

theorem Heeds.unused (hown : g.own = [ch]) (hu : Unused (y.chan .left ch))
    (hnone : ∀ ch', g.channel ≠ some ch') : Heeds c a y g := by
  refine ⟨?_, ?_, fun ch' hch => absurd hch (hnone ch')⟩
  · simp [hown]
  · intro ch' hch
    rw [hown] at hch
    obtain rfl := List.mem_singleton.mp hch
    left
    rw [hu.sent]
    exact List.nil_prefix

theorem Heeds.keep (h : Heeds c a y g) (hm : System.Moves y act y') (hi : (y.sess .left).Inv)
    (hknown : ∀ ch ∈ g.own, ch < (y.sess .left).fresh)
    (hne : ∀ ch ∈ g.own, ∀ st, act = .app .left (.call ch st) → g.channel = some ch) :
    Heeds c a y' g := by
  refine ⟨h.single, fun ch hch => ?_, fun ch hch => ?_⟩
  · by_cases hgiven : g.channel = some ch
    · exact ((h.given ch hgiven).2.keep hm hi (hknown ch hch)).requested
    · exact (h.requested ch hch).spared
        (spares hm hi (hknown ch hch) fun st heq => absurd (hne ch hch st heq) hgiven)
  · obtain ⟨hin, hg⟩ := h.given ch hch
    exact ⟨hin, hg.keep hm hi (hknown ch hin)⟩

variable [Text α] {es : List Done} {chn : Channel}

theorem Books.requested (hb : Books true ch (caller.exchange c a.path a.args a.reply ch) g chn es) :
    Requested c a chn := by
  obtain ⟨es', q, hsteps, hfull, -, hle⟩ := hb.written
  exact .inl (hle.trans (exchange_writes es' q hsteps hfull (List.prefix_refl _)).1)

theorem Books.given (hb : Books true ch (caller.exchange c a.path a.args a.reply ch) g chn es)
    {r : Reply α V E} (hr : g.prog = .ret r) (hresp : r.1 ≠ none) : Given c a chn := by
  have called := hb.steps
  have hsent := hb.ledger.sent
  have hdoing := hb.ledger.doing
  rw [hr] at called hsent hdoing
  -- the call has written its request, and no `Write` is left
  obtain ⟨henc, hw⟩ := exchange_sends called hresp hb.full
  rw [SentOf, hdoing.writes_ret, handed_ret, hw, List.append_nil] at hsent
  rcases hsent with hsent | ⟨hcl, -, hsent⟩
  · rw [List.flatMap_nil, List.append_nil] at hsent
    refine .inr ⟨henc, ?_⟩
    rw [hsent, Asked.request]
  · refine .inl ⟨hcl, ?_, hsent⟩
    rw [hdoing.writes_ret]
    simp

theorem Progress.heeds (h : Progress c a y g) : Heeds c a y g := by
  cases h with
  | called hown hp hplace => exact .unopened hown fun ch => Goroutine.channel_op hp
  | opening hown hp hplace hu => exact .unused hown hu fun ch => Goroutine.channel_op hp
  | refused hown hp hu =>
    refine .unused hown hu fun ch hch => ?_
    rw [Goroutine.channel, hp] at hch
    cases hch
  | @exchanging ch es hb =>
    refine ⟨?_, fun ch' hch => ?_, fun ch' hch => ?_⟩
    · simp [hb.own]
    · rw [hb.own] at hch
      obtain rfl := List.mem_singleton.mp hch
      exact hb.requested
    · cases hr : g.prog with
      | op o k => exact absurd hch (Goroutine.channel_op hr)
      | ret r =>
        rw [Goroutine.channel, hr] at hch
        cases hresp : r.1 with
        | none => simp [Program.result, hresp] at hch
        | some resp =>
          obtain rfl : resp.Channel = ch' := by simpa [Program.result, hresp] using hch
          have called := hb.steps
          rw [hr] at called
          rw [(exchange_channel a.path a.args a.reply).returns called resp hresp]
          refine ⟨hb.own ▸ List.mem_singleton_self _, hb.given hr ?_⟩
          simp [hresp]

end Heeds

/-! ## The channels of the calls -/

/-- Only a goroutine that is inside `Open` creates a channel to send on. -/
theorem registers {y y' : System} {act : System.Act} {x : Side} {ch : Nat} (hm : System.Moves y act y')
    (hge : (y.sess x).fresh ≤ ch) (hlt : ch < (y'.sess x).fresh)
    (hd : (y'.chan x ch).direction = .outbound) : act = .app x .register := by
  obtain ⟨out, -, hat⟩ := hm.side x
  have new : ∀ {b out}, Session.Trans (y.sess x) b (y'.sess x) out → b = .register := by
    intro b out ht
    rcases ht.fresh with hf | ⟨hf, ⟨hb, -⟩ | ⟨m, id, -, hn⟩⟩
    · rw [hf] at hlt
      exact absurd hge (Nat.not_le.mpr hlt)
    · exact hb
    · obtain rfl : ch = (y.sess x).fresh := by omega
      have heq : y'.chan x (y.sess x).fresh = Session.inboundChannel m id := hn
      rw [heq] at hd
      cases hd
  cases hat with
  | still _ hs =>
    rw [hs] at hlt
    exact absurd hge (Nat.not_le.mpr hlt)
  | app ha _ ht => rw [ha, new ht]
  | recv _ _ ht => cases new ht

section Heard

variable [DecidableEq α] [Text α] (c : Codecs α V E) (ps : List (List α × Procedure α V E))

/-- A `Respond` for the call that has opened the other end of its channel: it has written nothing but
the answer to that call. -/
structure RespondsTo (y : System) (r : Responding) (a : Asked α V) (g : Goroutine (Reply α V E)) :
    Prop where
  peer : ∃ ch ∈ g.own, y.peer .left ch = some r.chan
  answers : ∃ order, order.Perm ps ∧
    dataOf (y.chan .right r.chan).sent <+: frames (response c (answerOf order a.path a.args))

structure Service.Heard (s : Service α V E) : Prop where
  inv : s.Inv c ps
  /-- whatever is opened is opened by a call -/
  opened : ∀ ch < (s.world.sys.sess .left).fresh, (s.world.sys.chan .left ch).direction = .outbound →
    ∃ (i : Nat) (g : _), s.world.calls[i]? = some g ∧ ch ∈ g.own
  heeds : ∀ (i : Nat) g a, s.world.calls[i]? = some g → s.asked[i]? = some a →
    Heeds c a s.world.sys g

variable {c ps} {s s' : Service α V E}

namespace Service.Heard

theorem opened_step (h : s.Heard c ps) {sys : System} {act : System.Act}
    (hm : System.Moves s.world.sys act sys) (hreg : act ≠ .app .left .register) {ch : Nat}
    (hch : ch < (sys.sess .left).fresh) (hd : (sys.chan .left ch).direction = .outbound) :
    ∃ (i : Nat) (g : _), s.world.calls[i]? = some g ∧ ch ∈ g.own := by
  rcases Nat.lt_or_ge ch (s.world.sys.sess .left).fresh with hlt | hge
  · exact h.opened ch hlt ((hm.extends (System.inv h.inv.run .left) hlt).direction.symm.trans hd)
  · exact absurd (registers hm hge hch hd) hreg

/-- A step on a channel of the left side is one that a call has returned, or on no channel of a
call. -/
theorem advance (h : s.Heard c ps) (hinv : s'.Inv c ps) {act : System.Act}
    (hm : System.Moves s.world.sys act s'.world.sys) (hcalls : s'.world.calls = s.world.calls)
    (hasked : s'.asked = s.asked) (hreg : act ≠ .app .left .register)
    (hleft : ∀ ch st, act = .app .left (.call ch st) → ∀ (i : Nat) g, s.world.calls[i]? = some g →
      ch ∈ g.own → g.channel = some ch) : s'.Heard c ps := by
  refine ⟨hinv, fun ch hch hd => ?_, fun i g a hg ha => ?_⟩
  · rw [hcalls]
    exact h.opened_step hm hreg hch hd
  · rw [hcalls] at hg
    rw [hasked] at ha
    refine (h.heeds i g a hg ha).keep hm (System.inv h.inv.run .left)
      (h.inv.sound.calls g (List.mem_of_getElem? hg)).known fun ch hch st heq => ?_
    exact hleft ch st heq i g hg hch

theorem caller (h : s.Heard c ps) {i : Nat} {g g' : Goroutine (Reply α V E)} {b : Session.Act}
    {sys : System} (hg : s.world.calls[i]? = some g) (hs : g.Steps .left s.world.sys b g' sys)
    (hf : full true s.world.sys .left b = true)
    (hinv : Service.Inv c ps ⟨{ s.world with sys, calls := s.world.calls.set i g' }, s.asked⟩) :
    Service.Heard c ps ⟨{ s.world with sys, calls := s.world.calls.set i g' }, s.asked⟩ := by
  have hm := hs.moves
  have hi := System.inv h.inv.run .left
  have hknown := (h.inv.sound.calls g (List.mem_of_getElem? hg)).known
  obtain ⟨hn, hown', -⟩ := hs.next
  obtain ⟨q, hq⟩ := h.inv.asked_of hg
  obtain ⟨hp', htarget⟩ := (h.inv.going hg hq hs).step hi hknown hs
    ((System.Routed.of_run h.inv.run).connected .left) hf
  have hset : (s.world.calls.set i g')[i]? = some g' :=
    List.getElem?_set_self (List.getElem?_eq_some_iff.mp hg).1
  refine ⟨hinv, fun ch hch hd => ?_, fun j u q' hu hq' => ?_⟩
  · rcases Nat.lt_or_ge ch (s.world.sys.sess .left).fresh with hlt | hge
    · obtain ⟨j, u, hu, hin⟩ := h.opened ch hlt ((hm.extends hi hlt).direction.symm.trans hd)
      by_cases hij : j = i
      · subst hij
        obtain rfl := Option.some.inj (hg.symm.trans hu)
        exact ⟨j, g', hset, hown' ▸ List.mem_append_left _ hin⟩
      · refine ⟨j, u, ?_, hin⟩
        rw [List.getElem?_set_ne (Ne.symm hij)]
        exact hu
    · cases registers hm hge hch hd
      have hfresh := (System.register_step hn).1
      refine ⟨i, g', hset, hown' ▸ List.mem_append_right _ (List.mem_singleton.mpr ?_)⟩
      simp only at hch
      omega
  · rcases getElem?_set_cases hu with ⟨rfl, rfl⟩ | ⟨hne, hu⟩
    · obtain rfl : q = q' := Option.some.inj (hq.symm.trans hq')
      exact hp'.heeds
    · refine (h.heeds j u q' hu hq').keep hm hi
        (h.inv.sound.calls u (List.mem_of_getElem? hu)).known fun ch hch st heq => ?_
      cases heq
      rcases htarget with hreg | ⟨ch', hch', st', heq⟩
      · cases hreg
      · cases heq
        exact absurd (h.inv.apart j i u g ch hu hg hch hch') hne

theorem call (h : s.Heard c ps) (a : Asked α V) (hinv : Service.Inv c ps ⟨{ s.world with
      calls := s.world.calls ++ [{ prog := caller.Call c a.path a.args a.reply }] }, s.asked ++ [a]⟩) :
    Service.Heard c ps ⟨{ s.world with
      calls := s.world.calls ++ [{ prog := caller.Call c a.path a.args a.reply }] }, s.asked ++ [a]⟩ := by
  have hlen := h.inv.length
  refine ⟨hinv, fun ch hch hd => ?_, fun i g q hg hq => ?_⟩
  · obtain ⟨i, g, hg, hin⟩ := h.opened ch hch hd
    refine ⟨i, g, ?_, hin⟩
    rw [List.getElem?_append_left (List.getElem?_eq_some_iff.mp hg).1]
    exact hg
  · rcases getElem?_snoc_cases hg with ⟨rfl, rfl⟩ | ⟨hlt, hg⟩
    · exact .unopened rfl fun ch => Goroutine.channel_op rfl
    · rcases getElem?_snoc_cases hq with ⟨rfl, -⟩ | ⟨-, hq⟩
      · exact absurd hlen (Nat.ne_of_gt hlt)
      · exact h.heeds i g q hg hq

variable (hcall : Faithful c.call) (hheader : Faithful c.header) (hvalue : Faithful c.value)

include hcall hheader hvalue

theorem step (h : s.Heard c ps) {a : Act ps} (hok : Orderly s a) (hn : s.next c ps a = some s') :
    s'.Heard c ps := by
  have hinv := h.inv.step hcall hheader hvalue hok hn
  cases a with
  | call a =>
    cases hn
    exact h.call a hinv
  | accept order hperm =>
    obtain ⟨w, hw, hn⟩ := Option.bind_eq_some_iff.mp hn
    cases hn
    cases World.Moves.of_next hw with
    | accept _ _ hin hsys hs => exact h.advance hinv (.of_next hsys) rfl rfl (by simp) (by simp)
  | goesOn b =>
    cases b with
    | call | accept => cases hn
    | caller i b =>
      obtain ⟨w, hw, hn⟩ := Option.bind_eq_some_iff.mp hn
      cases hn
      cases World.Moves.of_next hw with
      | caller hg hs => exact h.caller hg (.of_next hs) hok.2 hinv
    | responder i b =>
      obtain ⟨w, hw, hn⟩ := Option.bind_eq_some_iff.mp hn
      cases hn
      cases World.Moves.of_next hw with
      | responder hr hs =>
        exact h.advance hinv (Goroutine.Steps.of_next hs).moves rfl rfl (by simp) (by simp)
    | handOut i =>
      obtain ⟨w, hw, hn⟩ := Option.bind_eq_some_iff.mp hn
      cases hn
      cases World.Moves.of_next hw with
      | handOut hr hp hown =>
        exact ⟨hinv, h.opened, h.heeds⟩
    | use x ch st =>
      obtain ⟨w, hw, hn⟩ := Option.bind_eq_some_iff.mp hn
      cases hn
      cases World.Moves.of_next hw with
      | use hg hsys =>
        obtain ⟨rfl, i, g, hi, hch⟩ := h.inv.given_call hg
        obtain ⟨q, hq⟩ := h.inv.asked_of hi
        refine h.advance hinv (.of_next hsys) rfl rfl (by simp) fun ch' st' heq j u hu hin => ?_
        cases heq
        obtain rfl := h.inv.apart j i u g ch hu hi hin ((h.heeds i g q hi hq).given ch hch).1
        obtain rfl := Option.some.inj (hi.symm.trans hu)
        exact hch
    | acceptEOF =>
      obtain ⟨w, hw, hn⟩ := Option.bind_eq_some_iff.mp hn
      cases hn
      cases World.Moves.of_next hw with
      | acceptEOF hsys hs => exact h.advance hinv (.of_next hsys) rfl rfl (by simp) (by simp)
    | loop x ok =>
      obtain ⟨w, hw, hn⟩ := Option.bind_eq_some_iff.mp hn
      cases hn
      cases World.Moves.of_next hw with
      | loop hsys => exact h.advance hinv (.of_next hsys) rfl rfl (by simp) (by simp)
    | deliver x =>
      obtain ⟨w, hw, hn⟩ := Option.bind_eq_some_iff.mp hn
      cases hn
      cases World.Moves.of_next hw with
      | deliver hsys => exact h.advance hinv (.of_next hsys) rfl rfl (by simp) (by simp)

theorem of_run (run : Run (Service.next c ps) Orderly Service.start s) : s.Heard c ps := by
  refine Run.invariant (I := Service.Heard c ps) ?_
    (fun s a s' _ h hok hn => h.step hcall hheader hvalue hok hn) run
  refine ⟨Service.Inv.of_run hcall hheader hvalue .start, fun ch hch => absurd hch (Nat.not_lt_zero ch), ?_⟩
  simp [Service.start, World.start]

omit hheader in
/-- What a `Respond` is for. -/
theorem respondsTo (h : s.Heard c ps) {r : Responding} (hr : r ∈ s.world.responds) :
    ∃ (i : Nat) (g : _) (a : _), s.world.calls[i]? = some g ∧ s.asked[i]? = some a ∧
      RespondsTo c ps s.world.sys r a g := by
  have hsound := h.inv.sound.responds r hr
  have hw := System.Wired.of_run h.inv.run
  -- the other end of the channel was opened by a call
  obtain ⟨ch, hpr⟩ := hw.accepted .right r.chan hsound.known hsound.accepted
  have hpeer : s.world.sys.peer .left ch = some r.chan := hw.symm .right r.chan ch hpr
  obtain ⟨i, g, hg, hown⟩ := h.opened ch (hw.lt .left ch r.chan hpeer).1
    ((hw.inbound_iff hpr).mp hsound.accepted)
  obtain ⟨a, ha⟩ := h.inv.asked_of hg
  -- and the request of that is in front of what comes in
  obtain ⟨more, hmore, hsent⟩ := ((h.heeds i g a hg ha).requested ch hown).front
  obtain ⟨order, es, hperm, hb⟩ := h.inv.responds r hr
  obtain ⟨es', q, hsteps, hfull, hrec, hle⟩ := hb.written
  have hread : received r.chan es' <+: frames (a.request c) ++ more := by
    rw [hrec]
    exact (hb.received.trans (h.inv.got_prefix hpeer)).trans hsent
  refine ⟨i, g, a, hg, ha, ⟨ch, hown, hpeer⟩, order, hperm, hle.trans ?_⟩
  exact (Respond_speaks_more hcall hvalue order hmore es' q hsteps hfull hread).1

end Service.Heard

/-- **Every `Respond` is for one call, and no two for the same.** -/
theorem answered_once (hcall : Faithful c.call) (hheader : Faithful c.header)
    (hvalue : Faithful c.value) (run : Run (Service.next c ps) Service.Orderly Service.start s) :
    ∃ f : Nat → Nat,
      (∀ (j k : Nat) r r', s.world.responds[j]? = some r → s.world.responds[k]? = some r' →
        f j = f k → j = k) ∧
      ∀ (j : Nat) r, s.world.responds[j]? = some r → ∃ g a, s.world.calls[f j]? = some g ∧
        s.asked[f j]? = some a ∧ RespondsTo c ps s.world.sys r a g := by
  have h := Service.Heard.of_run hcall hheader hvalue run
  have call : ∀ j : Nat, ∃ i : Nat, ∀ r, s.world.responds[j]? = some r → ∃ g a, s.world.calls[i]? = some g ∧
      s.asked[i]? = some a ∧ RespondsTo c ps s.world.sys r a g := by
    intro j
    cases hj : s.world.responds[j]? with
    | none => exact ⟨0, fun r hr => by cases hr⟩
    | some r =>
      obtain ⟨i, g, a, hg, ha, hto⟩ := h.respondsTo hcall hvalue (List.mem_of_getElem? hj)
      refine ⟨i, fun r' hr => ?_⟩
      cases hr
      exact ⟨g, a, hg, ha, hto⟩
  choose f hf using call
  refine ⟨f, fun j k r r' hr hr' heq => ?_, hf⟩
  obtain ⟨g, a, hg, ha, hto⟩ := hf j r hr
  obtain ⟨g', a', hg', -, hto'⟩ := hf k r' hr'
  rw [← heq] at hg'
  obtain rfl := Option.some.inj (hg.symm.trans hg')
  -- the call has opened one channel, and that has one peer
  obtain ⟨ch, hin, hp⟩ := hto.peer
  obtain ⟨ch', hin', hp'⟩ := hto'.peer
  obtain rfl := (h.heeds (f j) g a hg ha).single ch hin ch' hin'
  exact h.inv.distinct j k r r' hr hr' (Option.some.inj (hp.symm.trans hp'))

end Heard

/-- Both calls of the run have their `Respond`, and each its whole answer. -/
theorem answered_once_run : ∃ s : Service UInt8 UInt8 Unit,
    (s.world.responds.map fun r => dataOf (s.world.sys.chan .right r.chan).sent) =
      [frames (response shortCodecs (answerOf increments [117, 112] (some 5))),
        frames (response shortCodecs (answerOf increments [120] none))] ∧
    ∃ f : Nat → Nat,
      (∀ (j k : Nat) r r', s.world.responds[j]? = some r → s.world.responds[k]? = some r' →
        f j = f k → j = k) ∧
      ∀ (j : Nat) r, s.world.responds[j]? = some r → ∃ g a, s.world.calls[f j]? = some g ∧
        s.asked[f j]? = some a ∧ RespondsTo shortCodecs increments s.world.sys r a g := by
  obtain ⟨s, run, hs⟩ := Run.of_exec (Service.next shortCodecs increments) Service.Orderly Service.start
    Service.twoCalls
    (fun s => decide ((s.world.responds.map fun r => dataOf (s.world.sys.chan .right r.chan).sent) =
      [frames (response shortCodecs (answerOf increments [117, 112] (some 5))),
        frames (response shortCodecs (answerOf increments [120] none))]))
    (by decide +kernel)
  obtain ⟨hcall, hheader, hvalue⟩ := shortCodecs_faithful
  exact ⟨s, of_decide_eq_true hs, answered_once hcall hheader hvalue run⟩

end Qtalk.Rpc.Peer
