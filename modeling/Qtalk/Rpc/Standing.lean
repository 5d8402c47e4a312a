import Qtalk.Rpc.Blocked
import Qtalk.Rpc.Heard

/-!
# Where the calls of a service stand

A call that is inside `Open` waits for a confirmation, and nothing else comes; one that has opened
its channel will close it, as no answer of a service is hijacked (`Stands.step`, `Stands.gone`). And
nobody on the side of the server opens channels (`Service.Standing`).
-/

namespace Qtalk.Rpc.Peer
open Qtalk.Codec Qtalk.Lib Qtalk.Mux Program

variable {α V E ρ : Type}

/-! ## Responses that leave nothing open -/

section Unhijacked

variable [Text α] {c : Codecs α V E} {path : List α} {args : Option V} {reply fails : Bool}
  {ch : Nat} {inp : List UInt8}

theorem response_header (header : ResponseHeader α) :
    Speaks fails ch inp [] (fun r : Reply α V E => ∀ resp, r.1 = some resp → resp.header = header)
      (caller.response c ch header reply) := by
  have given : ∀ {inp} {v : Option V} {e : Option (CallError α E)}, Speaks fails ch inp []
      (fun r : Reply α V E => ∀ resp, r.1 = some resp → resp.header = header)
      (.ret (some { header, Reply := v, Channel := ch }, e)) := by
    intro inp v e
    refine Speaks.ret fun resp hr => ?_
    cases hr
    rfl
  rw [caller.response]
  cases header.Error with
  | some e => exact given
  | none =>
    cases reply with
    | true => exact Speaks.Decode_any fun inp x => by cases x <;> exact given
    | false => exact Speaks.Decode_any fun inp x => by cases x <;> exact given

/-- No answer of a service is hijacked. -/
theorem exchange_unhijacked (hh : Faithful c.header) (a : Option (Result α V)) :
    Speaks true ch (frames (response c a)) (frames (request c path args))
      (fun r : Reply α V E => ∀ resp, r.1 = some resp → resp.header.Hijacked = false)
      (caller.exchange c path args reply ch) := by
  have failed : ∀ {inp out} {e : CallError α E}, Speaks true ch inp out
      (fun r : Reply α V E => ∀ resp, r.1 = some resp → resp.header.Hijacked = false)
      (Close ch >>= fun _ => pure (none, some e)) :=
    Speaks.close fun _ => Speaks.ret fun resp hr => by cases hr
  refine Speaks.Encode (fun e he => failed) fun b _ r => ?_
  cases r with
  | some e => exact failed
  | none =>
    refine Speaks.Encode (fun e he => failed) fun b _ r => ?_
    cases r with
    | some e => exact failed
    | none =>
      cases a with
      | none => exact Speaks.Decode_nil fun _ inp e => failed
      | some x =>
        refine Speaks.Decode (fun b hb => (hh _ b hb).1) (fun _ inp e => failed) fun b hb => ?_
        rw [(hh _ b hb).2]
        have hunhijacked : (headerOf x : ResponseHeader α).Hijacked = false := by cases x <;> rfl
        dsimp only [Except.mapError]
        rw [if_neg (by simp [hunhijacked])]
        have hspeaks : Speaks true ch (frames [c.value.encode (valueOf x)]) [] _
          (caller.response c ch (headerOf x) reply) := response_header (headerOf x)
        refine hspeaks.bind fun r inp hr => Speaks.close fun _ => Speaks.ret fun resp hresp => ?_
        rw [hr resp hresp]
        exact hunhijacked

end Unhijacked

/-! ## Where a call stands -/

section Stands

variable {y y' : System} {act : System.Act} {x : Side} {ch : Nat}

/-- What only a call on a channel changes. -/
theorem uncalled (hm : System.Moves y act y') (hi : (y.sess x).Inv)
    (hc : ch < (y.sess x).fresh) (ha : ∀ st, act ≠ .app x (.call ch st)) :
    (y'.chan x ch).reads = (y.chan x ch).reads ∧ (y'.chan x ch).opening = (y.chan x ch).opening := by
  obtain ⟨out, -, hat⟩ := hm.side x
  rcases hat.changes hi hc with heq | ⟨b, hch, hb⟩
  · rw [heq]
    exact ⟨rfl, rfl⟩
  · cases hch with
    | none hh _ =>
      have heq : y'.chan x ch = y.chan x ch := hh
      rw [heq]
      exact ⟨rfl, rfl⟩
    | @move who ms chn hby hmove hh _ =>
      have heq : y'.chan x ch = chn.sends ms := hh
      rw [heq, Channel.sends]
      have other : ∀ st, who ≠ .call st := by
        rintro st rfl
        cases hby
        rcases hb with hb | ⟨m, hm'⟩
        · exact ha st hb
        · cases hm'
      cases hmove with
      | sendOpen | opened | openFailed | readNone | read | credit | adjust | dropAdjust =>
        exact absurd rfl (other _)
      | _ => exact ⟨rfl, rfl⟩

variable [Text α] (c : Codecs α V E)

/-- A call in progress, and that it will close its channel. -/
structure Stands (a : Asked α V) (y : System) (g : Goroutine (Reply α V E)) : Prop where
  progress : Progress c a y g
  opening : ∀ ch ∈ g.own, g.place = .opening ch → (y.chan .left ch).opening ≠ .returned
  reads : ∀ ch ∈ g.own, (y.chan .left ch).reads.length = g.place.reads
  closes : ∀ ch ∈ g.own, g.place ≠ .opening ch → (y.chan .left ch).held = true ∧
    (g.prog.Passes (· = .Close ch) (LeftOpen ch) ∨ (y.chan .left ch).sentClose = true)

/-- The call has returned, and its channel is closed. -/
structure Gone (y : System) (g : Goroutine (Reply α V E)) : Prop where
  returned : g.Returned
  closed : ∀ ch ∈ g.own, (y.chan .left ch).sentClose = true

variable {c} {a : Asked α V} {g g' : Goroutine (Reply α V E)} {b : Session.Act} {es : List Done}

theorem Books.not_opening {fails : Bool} {p₀ : Go ρ} {g : Goroutine ρ} {chn : Channel}
    (hb : Books fails ch p₀ g chn es) (d : Nat) : g.place ≠ .opening d := by
  have hdoing := hb.ledger.doing
  intro hplace
  rw [hplace] at hdoing
  cases hdoing

omit [Text α] in
theorem Gone.keep (h : Gone y g) (hm : System.Moves y act y') (hi : (y.sess .left).Inv)
    (hknown : ∀ ch ∈ g.own, ch < (y.sess .left).fresh) : Gone y' g :=
  ⟨h.returned, fun ch hch => (hm.extends hi (hknown ch hch)).sentClose (h.closed ch hch)⟩

theorem Stands.keep (h : Stands c a y g) (hm : System.Moves y act y') (hi : (y.sess .left).Inv)
    (hknown : ∀ ch ∈ g.own, ch < (y.sess .left).fresh)
    (hne : ∀ ch ∈ g.own, ∀ st, act ≠ .app .left (.call ch st)) : Stands c a y' g := by
  refine ⟨h.progress.keep fun ch hch => ?_, fun ch hch hplace => ?_, fun ch hch => ?_,
    fun ch hch hplace => ?_⟩
  · exact spares hm hi (hknown ch hch) fun st heq => absurd heq (hne ch hch st)
  · rw [(uncalled hm hi (hknown ch hch) (hne ch hch)).2]
    exact h.opening ch hch hplace
  · rw [(uncalled hm hi (hknown ch hch) (hne ch hch)).1]
    exact h.reads ch hch
  · obtain ⟨held, hcl⟩ := h.closes ch hch hplace
    exact ⟨hm.held hi (hknown ch hch) held, hcl.imp_right (hm.extends hi (hknown ch hch)).sentClose⟩

theorem sendOpen_waits (hn : y.next (.app .left (.call ch (.sendOpen true))) = some y') :
    (y'.chan .left ch).opening ≠ .returned := by
  obtain ⟨-, r, hr, heq⟩ := System.call_step hn
  simp only [Channel.step, Channel.sendOpen] at hr
  split at hr
  · cases hr
    rw [heq]
    simp [Channel.sends]
  · cases hr

/-- An `Open` that returns has been confirmed, and its channel is in the hands of the caller. -/
theorem opened_holds (run : Run System.next System.Considerate System.start y)
    (hknown : ch < (y.sess .left).fresh) (hout : (y.chan .left ch).direction = .outbound)
    (hn : y.next (.app .left (.call ch .opened)) = some y') :
    opened ch (y.chan .left ch) = .ok ch ∧ (y'.chan .left ch).held = true := by
  obtain ⟨-, res, hres, heq⟩ := System.call_step hn
  simp only [Channel.step, Channel.opened, bind, Option.bind_eq_some_iff] at hres
  obtain ⟨chn, hopen, hres⟩ := hres
  cases hres
  split at hopen
  · next hw =>
    have hgo : (y.chan .left ch).msg ≠ [] ∨ (y.chan .left ch).msgClosed = true := by
      split at hopen
      · next hmsg => exact .inl (by simp [hmsg])
      · next hmsg => exact .inl (by simp [hmsg])
      · split at hopen
        · next hcl => exact .inr hcl
        · cases hopen
    obtain ⟨m, rest, hmsg⟩ := System.opened_confirmed run hknown hout hw hgo
    simp only [hmsg] at hopen
    cases hopen
    rw [opened, hmsg, heq]
    exact ⟨rfl, rfl⟩
  · cases hopen

/-- The call registers its channel. -/
theorem Stands.step_called (hown : g.own = []) (hp : g.prog = caller.Call c a.path a.args a.reply)
    (hplace : g.place = .idle) (hs : g.Steps .left y b g' y') (hp' : Progress c a y' g') :
    Stands c a y' g' := by
  cases hs with
  | goesOn hpq hst hn ha =>
    rw [hp] at hpq
    cases hpq
    rw [hplace] at hst ha
    cases hst
    cases ha
    obtain ⟨-, id, hid⟩ := System.register_step hn
    have own : ∀ ch ∈ g.own ++ registered (y.sess .left) .register, ch = (y.sess .left).fresh := by
      simp [hown, registered]
    refine ⟨hp', fun ch hch _ => ?_, fun ch hch => ?_, fun ch hch hpl => ?_⟩
    · rw [own ch hch, hid]
      simp [Session.outboundChannel]
    · rw [own ch hch, hid]
      rfl
    · rw [own ch hch] at hpl
      exact absurd rfl hpl
  | answered hpq hst hn ha =>
    rw [hp] at hpq
    cases hpq
    rw [hplace] at hst ha
    cases hst
    cases ha

/-- The call sends its `OpenMessage`, or it is confirmed and takes the channel it is given. -/
theorem Stands.step_opening (h : Stands c a y g)
    (run : Run System.next System.Considerate System.start y) (hknown : ch < (y.sess .left).fresh)
    (hout : (y.chan .left ch).direction = .outbound) (conn : (y.sess .left).connClosed = false)
    (hown : g.own = [ch]) (hp : g.prog = caller.Call c a.path a.args a.reply)
    (hplace : g.place = .opening ch) (hs : g.Steps .left y b g' y') (hp' : Progress c a y' g') :
    Stands c a y' g' := by
  have hreads := h.reads ch (hown ▸ List.mem_singleton_self _)
  rw [hplace] at hreads
  have own : ∀ st, ∀ d ∈ g.own ++ registered (y.sess .left) (.call ch st), d = ch := by
    simp [hown, registered]
  cases hs with
  | goesOn hpq hst hn ha =>
    rw [hp] at hpq
    cases hpq
    rw [hplace] at hst ha
    cases hst with
    | sendOpen _ ok =>
      cases ok with
      | false => cases ha
      | true =>
        cases ha
        refine ⟨hp', fun d hd _ => ?_, fun d hd => ?_, fun d hd hpl => ?_⟩
        · rw [own _ d hd]
          exact sendOpen_waits hn
        · rw [own _ d hd, reads_kept hn (by simp)]
          exact hreads
        · rw [own _ d hd] at hpl
          exact absurd rfl hpl
    | opened => cases ha
  | @answered _ _ _ r hpq hst hn ha =>
    rw [hp] at hpq
    cases hpq
    rw [hplace] at hst ha
    cases hst with
    | sendOpen _ ok =>
      cases ok with
      | true => cases ha
      | false =>
        cases System.Moves.of_next hn with
        | app hr => simp [System.reliable, conn] at hr
    | opened =>
      obtain rfl : opened ch (y.chan .left ch) = r := Sum.inr.inj ha
      obtain ⟨hok, hheld⟩ := opened_holds run hknown hout hn
      refine ⟨hp', fun d _ hpl => (by cases hpl), fun d hd => ?_, fun d hd _ => ?_⟩
      · rw [own _ d hd, reads_kept hn (by simp)]
        exact hreads
      · rw [own _ d hd]
        refine ⟨hheld, .inl ?_⟩
        simp only [hok]
        exact exchange_closes c a.path a.args a.reply ch

/-- The call goes on on its channel. -/
theorem Stands.step_exchanging (h : Stands c a y g) (hi : (y.sess .left).Inv)
    (conn : (y.sess .left).connClosed = false) (hknown : ∀ d ∈ g.own, d < (y.sess .left).fresh)
    (hb : Books true ch (caller.exchange c a.path a.args a.reply ch) g (y.chan .left ch) es)
    (hs : g.Steps .left y b g' y') (hf : full true y .left b = true) (hp' : Progress c a y' g') :
    Stands c a y' g' := by
  obtain ⟨⟨st, rfl⟩, es', hb'⟩ := hb.step hs conn hf
  have hin : ch ∈ g.own := hb.own ▸ List.mem_singleton_self _
  obtain ⟨held, hcl⟩ := h.closes ch hin (hb.not_opening ch)
  have own : ∀ d ∈ g'.own, d = ch := by simp [hb'.own]
  refine ⟨hp', fun d _ hpl => absurd hpl (hb'.not_opening d), fun d hd => ?_, fun d hd _ => ?_⟩
  · rw [own d hd]
    exact hb.reads_step (h.reads ch hin) hs
  · rw [own d hd]
    exact ⟨hs.moves.held hi (hknown ch hin) held, hs.closes hi (hknown ch hin) hcl⟩

/-- A call that goes on takes the channel it is given. -/
theorem Stands.step (h : Stands c a y g) (run : Run System.next System.Considerate System.start y)
    (hknown : ∀ ch ∈ g.own, ch < (y.sess .left).fresh)
    (hout : ∀ ch ∈ g.own, (y.chan .left ch).direction = .outbound)
    (hs : g.Steps .left y b g' y') (hf : full true y .left b = true) : Stands c a y' g' := by
  have hi := System.inv run .left
  have conn := (System.Routed.of_run run).connected .left
  have hp' := (h.progress.step hi hknown hs conn hf).1
  cases h.progress with
  | called hown hp hplace => exact .step_called hown hp hplace hs hp'
  | opening hown hp hplace =>
    have hin := hown ▸ List.mem_singleton_self _
    exact h.step_opening run (hknown _ hin) (hout _ hin) conn hown hp hplace hs hp'
  | exchanging hb => exact h.step_exchanging hi conn hknown hb hs hf hp'
  | refused hown hp =>
    cases hs with
    | goesOn hpq | answered hpq =>
      rw [hp] at hpq
      cases hpq

end Stands

/-! ## Every call of a service -/

section Standing

variable [DecidableEq α] [Text α] {c : Codecs α V E} {ps : List (List α × Procedure α V E)}

/-- A call that comes back has closed its channel. -/
theorem Stands.gone {s : Service α V E} {a : Asked α V} {g : Goroutine (Reply α V E)} {i : Nat}
    (hcall : Faithful c.call) (hheader : Faithful c.header) (hvalue : Faithful c.value)
    (hinv : s.Inv c ps) (hg : s.world.calls[i]? = some g) (h : Stands c a s.world.sys g)
    (hret : g.Returned) : Gone s.world.sys g := by
  refine ⟨hret, fun d hd => ?_⟩
  obtain ⟨r, hr⟩ := Option.isSome_iff_exists.mp hret
  rw [Program.result_eq_some] at hr
  have hplace : g.place ≠ .opening d := by
    intro hplace
    obtain ⟨k, hk⟩ := (hinv.sound.calls g (List.mem_of_getElem? hg)).inside d hplace
    rw [hr] at hk
    cases hk
  refine (h.closes d hd hplace).2.resolve_left fun hpass => ?_
  rw [hr] at hpass
  obtain ⟨resp, hresp, hhij, -⟩ : LeftOpen d r := hpass
  cases h.progress with
  | called _ hp | opening _ hp =>
    rw [hr] at hp
    cases hp
  | refused _ hp =>
    rw [hr] at hp
    cases hp
    cases hresp
  | @exchanging ch es hb =>
    obtain ⟨e, order, es', rest, hperm, hsteps, hfull, hreq, hans⟩ :=
      hinv.answerer hg (hb.own ▸ List.mem_singleton_self _)
    have hsent := hb.ledger.sent.le
    rw [hr, handed_ret, List.append_nil] at hsent
    have called := hb.steps
    rw [hr] at called
    -- it has read the answer of a service, and that is not hijacked
    obtain ⟨hwrote, -⟩ := exchange_writes es _ called hb.full (List.prefix_refl _)
    obtain ⟨hres, -⟩ := Respond_speaks hcall hvalue order es' rest hsteps hfull
      ((hreq.trans hsent).trans hwrote)
    have hun := (exchange_unhijacked hheader _ es _ called hb.full
      ((hb.received.trans hans).trans hres)).2 r rfl resp hresp
    rw [hun] at hhij
    cases hhij

variable (c ps)

/-- Where the calls and the goroutines that answer them stand. -/
structure Service.Standing (s : Service α V E) : Prop where
  heard : s.Heard c ps
  serving : s.world.serving = true
  inbound : ∀ d < (s.world.sys.sess .right).fresh, (s.world.sys.chan .right d).direction = .inbound
  calls : ∀ (i : Nat) g a, s.world.calls[i]? = some g → s.asked[i]? = some a →
    Gone s.world.sys g ∨ (¬ g.Returned ∧ Stands c a s.world.sys g)
  reading : ∀ r ∈ s.world.responds, (s.world.sys.chan .right r.chan).reads.length = r.go.place.reads
  unread : ∀ d < (s.world.sys.sess .right).fresh, (∀ r ∈ s.world.responds, r.chan ≠ d) →
    (s.world.sys.chan .right d).reads = []

variable {c ps} {s s' : Service α V E}

namespace Service.Standing

section Sessions

variable {sys : System} {act : System.Act}

theorem inbound_step (h : s.Standing c ps) (hm : System.Moves s.world.sys act sys)
    (hreg : act ≠ .app .right .register) {d : Nat} (hd : d < (sys.sess .right).fresh) :
    (sys.chan .right d).direction = .inbound := by
  cases hdir : (sys.chan .right d).direction with
  | inbound => rfl
  | outbound =>
    rcases Nat.lt_or_ge d (s.world.sys.sess .right).fresh with hlt | hge
    · have hext := (hm.extends (System.inv h.heard.inv.run .right) hlt).direction
      have hold : (sys.chan .right d).direction = .inbound := hext.trans (h.inbound d hlt)
      rw [hdir] at hold
      cases hold
    · exact absurd (registers hm hge hd hdir) hreg

theorem calls_step (h : s.Standing c ps) (hm : System.Moves s.world.sys act sys) {i : Nat}
    {g : Goroutine (Reply α V E)} {a : Asked α V} (hg : s.world.calls[i]? = some g)
    (ha : s.asked[i]? = some a)
    (hne : ¬ g.Returned → ∀ ch ∈ g.own, ∀ st, act ≠ .app .left (.call ch st)) :
    Gone sys g ∨ (¬ g.Returned ∧ Stands c a sys g) := by
  have hi := System.inv h.heard.inv.run .left
  have hknown := (h.heard.inv.sound.calls g (List.mem_of_getElem? hg)).known
  refine (h.calls i g a hg ha).imp (fun hgone => hgone.keep hm hi hknown) fun hst => ?_
  exact ⟨hst.1, hst.2.keep hm hi hknown (hne hst.1)⟩

theorem reading_step (h : s.Standing c ps) (hm : System.Moves s.world.sys act sys) {r : Responding}
    (hr : r ∈ s.world.responds) (hne : ∀ st, act ≠ .app .right (.call r.chan st)) :
    (sys.chan .right r.chan).reads.length = r.go.place.reads := by
  have hknown := (h.heard.inv.sound.responds r hr).known
  rw [(uncalled hm (System.inv h.heard.inv.run .right) hknown hne).1]
  exact h.reading r hr

theorem unread_step (h : s.Standing c ps) (hm : System.Moves s.world.sys act sys) {d : Nat}
    (hd : d < (sys.sess .right).fresh) (hfree : ∀ r ∈ s.world.responds, r.chan ≠ d)
    (hne : ∀ st, act ≠ .app .right (.call d st)) : (sys.chan .right d).reads = [] := by
  rcases Nat.lt_or_ge d (s.world.sys.sess .right).fresh with hlt | hge
  · rw [(uncalled hm (System.inv h.heard.inv.run .right) hlt hne).1]
    exact h.unread d hlt hfree
  · obtain ⟨out, -, hat⟩ := hm.side .right
    rcases hat.new hge hd with ⟨id, hid⟩ | ⟨m, id, hid⟩
    · rw [hid]
      rfl
    · rw [hid]
      rfl

/-- A step of the sessions that is none of a goroutine of the service. -/
theorem advance (h : s.Standing c ps) (hheard : s'.Heard c ps)
    (hm : System.Moves s.world.sys act s'.world.sys) (hcalls : s'.world.calls = s.world.calls)
    (hasked : s'.asked = s.asked) (hresponds : s'.world.responds = s.world.responds)
    (hserving : s'.world.serving = s.world.serving) (hreg : act ≠ .app .right .register)
    (hleft : ∀ ch st, act = .app .left (.call ch st) → ∀ (i : Nat) g, s.world.calls[i]? = some g →
      ch ∈ g.own → g.Returned)
    (hright : ∀ ch st, act ≠ .app .right (.call ch st)) : s'.Standing c ps := by
  refine ⟨hheard, hserving.trans h.serving, fun d hd => h.inbound_step hm hreg hd,
    fun i g a hg ha => ?_, fun r hr => ?_, fun d hd hfree => ?_⟩
  · rw [hcalls] at hg
    rw [hasked] at ha
    exact h.calls_step hm hg ha fun hnot ch hch st heq => hnot (hleft ch st heq i g hg hch)
  · rw [hresponds] at hr
    exact h.reading_step hm hr (hright r.chan)
  · rw [hresponds] at hfree
    exact h.unread_step hm hd hfree (hright d)

end Sessions

theorem call (h : s.Standing c ps) (a : Asked α V) (hheard : Service.Heard c ps ⟨{ s.world with
      calls := s.world.calls ++ [{ prog := caller.Call c a.path a.args a.reply }] }, s.asked ++ [a]⟩) :
    Service.Standing c ps ⟨{ s.world with
      calls := s.world.calls ++ [{ prog := caller.Call c a.path a.args a.reply }] }, s.asked ++ [a]⟩ := by
  have hlen := h.heard.inv.length
  refine ⟨hheard, h.serving, h.inbound, fun i g q hg hq => ?_, h.reading, h.unread⟩
  rcases getElem?_snoc_cases hg with ⟨rfl, rfl⟩ | ⟨hlt, hg⟩
  · rcases getElem?_snoc_cases hq with ⟨-, rfl⟩ | ⟨hlt, -⟩
    · refine .inr ⟨fun hret => (by cases hret), .called rfl rfl rfl, ?_, ?_, ?_⟩ <;>
      · intro ch hch
        cases hch
    · exact absurd hlen (Nat.ne_of_lt hlt)
  · rcases getElem?_snoc_cases hq with ⟨rfl, -⟩ | ⟨-, hq⟩
    · exact absurd hlen (Nat.ne_of_gt hlt)
    · exact h.calls i g q hg hq

theorem accept (h : s.Standing c ps) {order : List (List α × Procedure α V E)} {ch : Nat}
    {rest : List Nat} {sys : System} (hin : (s.world.sys.sess .right).incoming = ch :: rest)
    (hn : s.world.sys.next (.app .right .accept) = some sys)
    (hheard : Service.Heard c ps ⟨{ s.world with
      sys, responds := s.world.responds ++
        [⟨ch, { own := [ch], prog := Respond c (handlers c order) ch }⟩] }, s.asked⟩) :
    Service.Standing c ps ⟨{ s.world with
      sys, responds := s.world.responds ++
        [⟨ch, { own := [ch], prog := Respond c (handlers c order) ch }⟩] }, s.asked⟩ := by
  have hm := System.Moves.of_next hn
  have hlt := ((System.inv h.heard.inv.run .right).incoming ch (by rw [hin]; exact List.mem_cons_self)).1
  have hunheld : (s.world.sys.chan .right ch).held = false :=
    (Session.Coming.of_run (System.any_run h.heard.inv.run .right)).unaccepted hin
  have hfree : ∀ r ∈ s.world.responds, r.chan ≠ ch := by
    rintro r hr rfl
    rw [h.heard.inv.held r hr] at hunheld
    cases hunheld
  refine ⟨hheard, h.serving, fun d hd => h.inbound_step hm (by simp) hd,
    fun i g a hg ha => h.calls_step hm hg ha (by simp), fun r hr => ?_, fun d hd hnot => ?_⟩
  · rcases List.mem_append.mp hr with hr | hr
    · exact h.reading_step hm hr (by simp)
    · obtain rfl := List.mem_singleton.mp hr
      have hnone := h.unread_step hm (Nat.lt_of_lt_of_le hlt (hm.fresh .right)) hfree (by simp)
      show (sys.chan .right ch).reads.length = 0
      rw [hnone]
      rfl
  · exact h.unread_step hm hd (fun r hr => hnot r (List.mem_append_left _ hr)) (by simp)

theorem responder (h : s.Standing c ps) {i : Nat} {r : Responding} {go : Goroutine Unit}
    {b : Session.Act} {sys : System} (hr : s.world.responds[i]? = some r)
    (hs : r.go.Steps .right s.world.sys b go sys) (hf : full false s.world.sys .right b = true)
    (hheard : Service.Heard c ps
      ⟨{ s.world with sys, responds := s.world.responds.set i { r with go } }, s.asked⟩) :
    Service.Standing c ps
      ⟨{ s.world with sys, responds := s.world.responds.set i { r with go } }, s.asked⟩ := by
  have hm := hs.moves
  have hin := List.mem_of_getElem? hr
  obtain ⟨order, es, hperm, hb⟩ := h.heard.inv.responds r hin
  obtain ⟨⟨st, rfl⟩, -⟩ := hb.step hs ((System.Routed.of_run h.heard.inv.run).connected .right) hf
  refine ⟨hheard, h.serving, fun d hd => h.inbound_step hm (by simp) hd,
    fun j g a hg ha => h.calls_step hm hg ha (by simp), fun u hu => ?_, fun d hd hfree => ?_⟩
  · obtain ⟨j, hj⟩ := List.getElem?_of_mem hu
    rcases getElem?_set_cases hj with ⟨rfl, rfl⟩ | ⟨hne, hj⟩
    · exact hb.reads_step (h.reading r hin) hs
    · refine h.reading_step hm (List.mem_of_getElem? hj) fun st' heq => hne ?_
      simp only [System.Act.app.injEq, Session.Act.call.injEq, true_and] at heq
      exact h.heard.inv.distinct j i u r hj hr heq.1.symm
  · have hfree' := free_of_set hr hfree
    refine h.unread_step hm hd hfree' fun st' heq => ?_
    cases heq
    exact hfree' r hin rfl

section Step

variable (hcall : Faithful c.call) (hheader : Faithful c.header) (hvalue : Faithful c.value)

include hcall hheader hvalue

theorem caller (h : s.Standing c ps) {i : Nat} {g g' : Goroutine (Reply α V E)} {b : Session.Act}
    {sys : System} (hg : s.world.calls[i]? = some g) (hs : g.Steps .left s.world.sys b g' sys)
    (hf : full true s.world.sys .left b = true)
    (hheard : Service.Heard c ps ⟨{ s.world with sys, calls := s.world.calls.set i g' }, s.asked⟩) :
    Service.Standing c ps ⟨{ s.world with sys, calls := s.world.calls.set i g' }, s.asked⟩ := by
  have hm := hs.moves
  have hinv := h.heard.inv
  have hi := System.inv hinv.run .left
  have hknown := (hinv.sound.calls g (List.mem_of_getElem? hg)).known
  have hset : (s.world.calls.set i g')[i]? = some g' :=
    List.getElem?_set_self (List.getElem?_eq_some_iff.mp hg).1
  obtain ⟨q, hq⟩ := hinv.asked_of hg
  have conn := (System.Routed.of_run hinv.run).connected .left
  have htarget := ((hinv.going hg hq hs).step hi hknown hs conn hf).2
  refine ⟨hheard, h.serving, fun d hd => h.inbound_step hm (by simp) hd, fun j u a hu ha => ?_,
    fun r hr => h.reading_step hm hr (by simp), fun d hd hfree => h.unread_step hm hd hfree (by simp)⟩
  rcases getElem?_set_cases hu with ⟨rfl, rfl⟩ | ⟨hne, hu⟩
  · obtain rfl : q = a := Option.some.inj (hq.symm.trans ha)
    have hnot := hs.not_returned
    have hstands := ((h.calls j g q hg hq).resolve_left fun hgone => hnot hgone.returned).2.step hinv.run
      hknown (hinv.sound.outbound g (List.mem_of_getElem? hg)) hs hf
    by_cases hret : u.Returned
    · exact .inl (hstands.gone hcall hheader hvalue hheard.inv hset hret)
    · exact .inr ⟨hret, hstands⟩
  · refine h.calls_step hm hu ha fun _ ch hch st heq => ?_
    cases heq
    rcases htarget with hreg | ⟨ch', hch', st', heq⟩
    · cases hreg
    · cases heq
      exact hne (hinv.apart j i u g ch hu hg hch hch')

theorem step (h : s.Standing c ps) {a : Act ps} (hok : Orderly s a) (hn : s.next c ps a = some s') :
    s'.Standing c ps := by
  have hheard := h.heard.step hcall hheader hvalue hok hn
  have hinv := h.heard.inv
  cases a with
  | call a =>
    cases hn
    exact h.call a hheard
  | accept order hperm =>
    obtain ⟨w, hw, hn⟩ := Option.bind_eq_some_iff.mp hn
    cases hn
    cases World.Moves.of_next hw with
    | accept _ _ hin hsys hs => exact h.accept hin hsys hheard
  | goesOn b =>
    cases b with
    | call | accept => cases hn
    | caller i b =>
      obtain ⟨w, hw, hn⟩ := Option.bind_eq_some_iff.mp hn
      cases hn
      cases World.Moves.of_next hw with
      | caller hg hs => exact h.caller hcall hheader hvalue hg (.of_next hs) hok.2 hheard
    | responder i b =>
      obtain ⟨w, hw, hn⟩ := Option.bind_eq_some_iff.mp hn
      cases hn
      cases World.Moves.of_next hw with
      | responder hr hs => exact h.responder hr (.of_next hs) hok.2 hheard
    | handOut i =>
      obtain ⟨w, hw, hn⟩ := Option.bind_eq_some_iff.mp hn
      cases hn
      cases World.Moves.of_next hw with
      | handOut hr hp hown =>
        -- no handler hijacks
        obtain ⟨order, es, -, hb⟩ := hinv.responds _ (List.mem_of_getElem? hr)
        have hon := hb.on.steps hb.steps
        rw [hp] at hon
        exact hon.1.elim
    | use x ch st =>
      obtain ⟨w, hw, hn⟩ := Option.bind_eq_some_iff.mp hn
      cases hn
      cases World.Moves.of_next hw with
      | use hg hsys =>
        obtain ⟨rfl, i, g, hi, hch⟩ := hinv.given_call hg
        obtain ⟨q, hq⟩ := hinv.asked_of hi
        have hset := hinv.settled hcall hheader hvalue hi hq hch
        refine h.advance hheard (.of_next hsys) rfl rfl rfl rfl (by simp)
          (fun ch' st' heq j u hu hin => ?_) (by simp)
        cases heq
        obtain rfl := hinv.apart j i u g ch hu hi hin (hset.channel ch hch)
        obtain rfl := Option.some.inj (hi.symm.trans hu)
        obtain ⟨r, -, -, hr, -⟩ := hset.returned
        rw [Goroutine.Returned, hr]
        rfl
    | acceptEOF =>
      obtain ⟨w, hw, hn⟩ := Option.bind_eq_some_iff.mp hn
      cases hn
      cases World.Moves.of_next hw with
      | acceptEOF hsys hs =>
        -- the loop has not ended
        have hrun := (System.Routed.of_run hinv.run).running .right
        have hcl := ((Session.signalsOnce (System.any_run hinv.run .right)).running hrun).2
        cases System.Moves.of_next hsys with
        | app _ _ ht =>
          cases ht with
          | acceptEOF hc =>
            rw [hcl] at hc
            cases hc
    | loop x ok =>
      obtain ⟨w, hw, hn⟩ := Option.bind_eq_some_iff.mp hn
      cases hn
      cases World.Moves.of_next hw with
      | loop hsys =>
        exact h.advance hheard (.of_next hsys) rfl rfl rfl rfl (by simp) (by simp) (by simp)
    | deliver x =>
      obtain ⟨w, hw, hn⟩ := Option.bind_eq_some_iff.mp hn
      cases hn
      cases World.Moves.of_next hw with
      | deliver hsys =>
        exact h.advance hheard (.of_next hsys) rfl rfl rfl rfl (by simp) (by simp) (by simp)

theorem of_run (run : Run (Service.next c ps) Orderly Service.start s) : s.Standing c ps := by
  refine Run.invariant (I := Service.Standing c ps) ?_
    (fun s a s' _ h hok hn => h.step hcall hheader hvalue hok hn) run
  refine ⟨Service.Heard.of_run hcall hheader hvalue .start, rfl,
    fun d hd => absurd hd (Nat.not_lt_zero d), ?_, ?_, fun d hd => absurd hd (Nat.not_lt_zero d)⟩
  · simp [Service.start, World.start]
  · simp [Service.start, World.start]

end Step

end Service.Standing

end Standing

end Qtalk.Rpc.Peer
