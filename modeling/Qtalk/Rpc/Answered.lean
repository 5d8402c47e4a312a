import Qtalk.Mux.Coming
import Qtalk.Rpc.Service
import Qtalk.System.Stream

/-!
# Every call is answered by its own handler

Any number of calls are made of a service, on as many channels, under any schedule of their
goroutines and of the two sessions. No two calls have a channel in common, nor do two goroutines
answer on one (`Service.Inv`), and what comes in on the channel of a call was written by a
`Respond` that has read that call (`Service.Inv.answerer`). So a call that returns has the answer of
the handler of its path to its arguments (`calls_answered`).
-/

namespace Qtalk.Rpc.Peer
open Qtalk.Codec Qtalk.Lib Qtalk.Mux

variable {α V E : Type}

section Inv

variable [DecidableEq α] [Text α] (c : Codecs α V E) (ps : List (List α × Procedure α V E))

/-- The call has returned with the answer to it. -/
structure Settled (a : Asked α V) (g : Goroutine (Reply α V E)) : Prop where
  returned : ∃ r ch order, g.prog = .ret r ∧ order.Perm ps ∧
    CameTo c a.path a.args a.reply ch (answerOf order a.path a.args) r
  channel : ∀ ch, g.channel = some ch → ch ∈ g.own

/-- The goroutine answers what comes in on its channel. -/
def Answers (y : System) (r : Responding) : Prop :=
  ∃ order es, order.Perm ps ∧
    Books false r.chan (Respond c (Service.handlers c order) r.chan) r.go (y.chan .right r.chan) es

structure Service.Inv (s : Service α V E) : Prop where
  run : Run System.next System.Considerate System.start s.world.sys
  sound : s.world.Sound
  hijacked : s.world.hijacked = []
  length : s.world.calls.length = s.asked.length
  calls : ∀ (i : Nat) g a, s.world.calls[i]? = some g → s.asked[i]? = some a →
    Settled c ps a g ∨ Progress c a s.world.sys g
  /-- no two calls have a channel in common -/
  apart : ∀ (i j : Nat) g g' ch, s.world.calls[i]? = some g → s.world.calls[j]? = some g' →
    ch ∈ g.own → ch ∈ g'.own → i = j
  responds : ∀ r ∈ s.world.responds, Answers c ps s.world.sys r
  /-- and no two goroutines answer on one -/
  distinct : ∀ (i j : Nat) r r', s.world.responds[i]? = some r → s.world.responds[j]? = some r' →
    r.chan = r'.chan → i = j
  held : ∀ r ∈ s.world.responds, (s.world.sys.chan .right r.chan).held = true
  unused : ∀ d < (s.world.sys.sess .right).fresh, (∀ r ∈ s.world.responds, r.chan ≠ d) →
    Unused (s.world.sys.chan .right d)

variable {c ps} {s s' : Service α V E}

omit [DecidableEq α] [Text α] in
/-- A goroutine that goes on answers on its old channel. -/
theorem free_of_set {rs : List Responding} {i d : Nat} {r : Responding} {go : Goroutine Unit}
    (hr : rs[i]? = some r) (hfree : ∀ u ∈ rs.set i { r with go }, u.chan ≠ d) :
    ∀ u ∈ rs, u.chan ≠ d := by
  intro u hu
  obtain ⟨j, hj⟩ := List.getElem?_of_mem hu
  by_cases hij : j = i
  · subst hij
    obtain rfl := Option.some.inj (hr.symm.trans hj)
    obtain ⟨hlt, -⟩ := List.getElem?_eq_some_iff.mp hr
    exact hfree { r with go } (List.mem_of_getElem? (List.getElem?_set_self hlt))
  · refine hfree u (List.mem_of_getElem? (i := j) ?_)
    rw [List.getElem?_set_ne (Ne.symm hij)]
    exact hj

namespace Service.Inv

/-- What a `Respond` has read is from the front of what was sent at the other end. -/
theorem got_prefix (h : s.Inv c ps) {ch d : Nat} (hp : s.world.sys.peer .left ch = some d) :
    (s.world.sys.chan .right d).got <+: dataOf (s.world.sys.chan .left ch).sent := by
  have hj := (System.Routed.of_run h.run).joined (System.Wired.of_run h.run) hp
  refine List.IsPrefix.trans ?_ (dataOf_mono hj.handled_peer)
  exact ⟨_, (System.accounts h.run (hj.fresh h.run).2).streamed.symm⟩

/-- What comes in on the channel of a call was written by a `Respond` that has read what the call
has written, as far as it came. -/
theorem answerer (h : s.Inv c ps) {i : Nat} {g : Goroutine (Reply α V E)} {ch : Nat}
    (hg : s.world.calls[i]? = some g) (hown : ch ∈ g.own) :
    ∃ d order es rest, order.Perm ps ∧ Program.Steps (Respond c (Service.handlers c order) d) es rest ∧
      FullReads false d es ∧ received d es <+: dataOf (s.world.sys.chan .left ch).sent ∧
        (s.world.sys.chan .left ch).got <+: written d es := by
  have hin := List.mem_of_getElem? hg
  have hlt := (h.sound.calls g hin).known ch hown
  have hdir := h.sound.outbound g hin ch hown
  have hr := System.Routed.of_run h.run
  have hgot : dataOf (s.world.sys.chan .left ch).handled = (s.world.sys.chan .left ch).got ++
      (s.world.sys.chan .left ch).pending.content := (System.accounts h.run hlt).streamed
  -- where nobody answers, nothing comes in
  have silent : dataOf (s.world.sys.chan .left ch).handled = [] → ∃ d order es rest, order.Perm ps ∧
      Program.Steps (Respond c (Service.handlers c order) d) es rest ∧ FullReads false d es ∧
        received d es <+: dataOf (s.world.sys.chan .left ch).sent ∧
          (s.world.sys.chan .left ch).got <+: written d es := by
    intro hnil
    rw [hnil] at hgot
    refine ⟨0, ps, [], _, .refl _, .nil _, fun _ _ hm => (by cases hm), List.nil_prefix, ?_⟩
    rw [(List.append_eq_nil_iff.mp hgot.symm).1]
    exact List.nil_prefix
  cases hp : s.world.sys.peer .left ch with
  | none =>
    apply silent
    rw [((hr.fifo .left ch hlt hdir).alone hp).handled, dataOf_nil]
  | some d =>
    have hj := hr.joined (System.Wired.of_run h.run) hp
    have hd : d < (s.world.sys.sess .right).fresh := (hj.fresh h.run).2
    by_cases hresp : ∃ r ∈ s.world.responds, r.chan = d
    · obtain ⟨r, hr', rfl⟩ := hresp
      obtain ⟨order, es, hperm, hb⟩ := h.responds r hr'
      obtain ⟨es', q, hsteps, hfull, hrec, hle⟩ := hb.written
      refine ⟨r.chan, order, es', q, hperm, hsteps, hfull, ?_, ?_⟩
      · rw [hrec]
        exact hb.received.trans (h.got_prefix hp)
      · refine List.IsPrefix.trans ⟨_, hgot.symm⟩ ((dataOf_mono hj.handled).trans hle)
    · push Not at hresp
      apply silent
      have hnil := (h.unused d hd hresp).sent
      have hle : dataOf (s.world.sys.chan .left ch).handled <+: dataOf (s.world.sys.chan .right d).sent :=
        dataOf_mono hj.handled
      rw [hnil] at hle
      exact List.prefix_nil.mp hle

theorem asked_of (h : s.Inv c ps) {i : Nat} {g : Goroutine (Reply α V E)}
    (hg : s.world.calls[i]? = some g) : ∃ q, s.asked[i]? = some q := by
  obtain ⟨hlt, -⟩ := List.getElem?_eq_some_iff.mp hg
  exact ⟨_, List.getElem?_eq_getElem (h.length ▸ hlt)⟩

/-- A call that takes a step has not returned. -/
theorem going (h : s.Inv c ps) {i : Nat} {g g' : Goroutine (Reply α V E)} {q : Asked α V}
    {b : Session.Act} {sys : System} (hg : s.world.calls[i]? = some g) (hq : s.asked[i]? = some q)
    (hs : g.Steps .left s.world.sys b g' sys) : Progress c q s.world.sys g := by
  refine (h.calls i g q hg hq).resolve_left fun hset => ?_
  obtain ⟨r, -, -, hr, -⟩ := hset.returned
  cases hs with
  | goesOn hp | answered hp =>
    rw [hr] at hp
    cases hp

/-- Only the left side has been given channels, with the responses of calls. -/
theorem given_call (h : s.Inv c ps) {x : Side} {ch : Nat} (hg : s.world.given ch x = true) :
    x = .left ∧ ∃ (i : Nat) (g : _), s.world.calls[i]? = some g ∧ g.channel = some ch := by
  cases x with
  | right =>
    rw [World.given, h.hijacked] at hg
    cases hg
  | left =>
    obtain ⟨g, hin, hch⟩ := List.any_eq_true.mp hg
    obtain ⟨i, hi⟩ := List.getElem?_of_mem hin
    exact ⟨rfl, i, g, hi, by simpa using hch⟩

section Outcome

variable (hcall : Faithful c.call) (hheader : Faithful c.header) (hvalue : Faithful c.value)

include hcall hheader hvalue

/-- A call that has returned has the answer to it. -/
theorem outcome (h : s.Inv c ps) {i : Nat} {g : Goroutine (Reply α V E)} {a : Asked α V}
    {r : Reply α V E} (hg : s.world.calls[i]? = some g) (hp : Progress c a s.world.sys g)
    (hr : g.prog = .ret r) : Settled c ps a g := by
  cases hp with
  | called _ hp | opening _ hp =>
    rw [hr] at hp
    cases hp
  | @exchanging ch es hb =>
    have hown : ch ∈ g.own := hb.own ▸ List.mem_singleton_self _
    obtain ⟨d, order, es', rest, hperm, hsteps, hfull, hreq, hans⟩ := h.answerer hg hown
    have hsent : dataOf (s.world.sys.chan .left ch).sent <+: written ch es := by
      have hle := hb.ledger.sent.le
      rwa [hr, handed_ret, List.append_nil] at hle
    have called := hb.steps
    rw [hr] at called
    refine ⟨⟨r, ch, order, hr, hperm, ?_⟩, fun ch' hch => ?_⟩
    · exact call_answered hcall hheader hvalue order called hsteps hb.full hfull (hreq.trans hsent)
        (hb.received.trans hans)
    · have hc := (exchange_channel a.path a.args a.reply).returns called
      rw [Goroutine.channel, hr] at hch
      cases hresp : r.1 with
      | none => simp [Program.result, hresp] at hch
      | some resp =>
        have heq : resp.Channel = ch' := by simpa [Program.result, hresp] using hch
        rw [← heq, hc resp hresp]
        exact hown
  | @refused ch e hown hp =>
    rw [hr] at hp
    cases hp
    refine ⟨⟨_, ch, ps, hr, .refl _, .inr (.inl ⟨e, rfl⟩)⟩, fun ch' hch => ?_⟩
    rw [Goroutine.channel, hr] at hch
    cases hch

/-- A call whose channel has been given to the application has returned. -/
theorem settled (h : s.Inv c ps) {i : Nat} {g : Goroutine (Reply α V E)} {a : Asked α V} {ch : Nat}
    (hg : s.world.calls[i]? = some g) (ha : s.asked[i]? = some a) (hch : g.channel = some ch) :
    Settled c ps a g := by
  refine (h.calls i g a hg ha).elim id fun hp => ?_
  cases hr : g.prog with
  | ret r => exact h.outcome hcall hheader hvalue hg hp hr
  | op o k =>
    rw [Goroutine.channel, hr] at hch
    cases hch

end Outcome

/-! ### Steps of the sessions -/

section Sessions

variable {sys : System} {a : System.Act}

theorem calls_step (h : s.Inv c ps) (hm : System.Moves s.world.sys a sys) {i : Nat}
    {g : Goroutine (Reply α V E)} {q : Asked α V} (hg : s.world.calls[i]? = some g)
    (hq : s.asked[i]? = some q) (hne : ∀ ch ∈ g.own, ∀ st, a ≠ .app .left (.call ch st)) :
    Settled c ps q g ∨ Progress c q sys g := by
  refine (h.calls i g q hg hq).imp_right fun hp => hp.keep fun ch hch => ?_
  have hlt := (h.sound.calls g (List.mem_of_getElem? hg)).known ch hch
  exact spares hm (System.inv h.run .left) hlt fun st heq => absurd heq (hne ch hch st)

theorem responds_step (h : s.Inv c ps) (hm : System.Moves s.world.sys a sys) {r : Responding}
    (hr : r ∈ s.world.responds) (hne : ∀ st, a ≠ .app .right (.call r.chan st)) : Answers c ps sys r := by
  obtain ⟨order, es, hperm, hb⟩ := h.responds r hr
  refine ⟨order, es, hperm, hb.spared (spares hm (System.inv h.run .right) ?_ fun st heq => ?_)⟩
  · exact (h.sound.responds r hr).known
  · exact absurd heq (hne st)

theorem held_step (h : s.Inv c ps) (hm : System.Moves s.world.sys a sys) {r : Responding}
    (hr : r ∈ s.world.responds) : (sys.chan .right r.chan).held = true :=
  hm.held (System.inv h.run .right) (h.sound.responds r hr).known (h.held r hr)

theorem unused_step (h : s.Inv c ps) (hm : System.Moves s.world.sys a sys) {d : Nat}
    (hd : d < (sys.sess .right).fresh) (hfree : ∀ r ∈ s.world.responds, r.chan ≠ d)
    (hne : ∀ st, a ≠ .app .right (.call d st)) : Unused (sys.chan .right d) := by
  rcases Nat.lt_or_ge d (s.world.sys.sess .right).fresh with hlt | hge
  · exact (h.unused d hlt hfree).keep
      (spares hm (System.inv h.run .right) hlt fun st heq => absurd heq (hne st))
  · obtain ⟨out, -, hat⟩ := hm.side .right
    rcases hat.new hge hd with ⟨id, hid⟩ | ⟨m, id, hid⟩
    · rw [hid]
      exact .outbound id
    · rw [hid]
      exact .inbound m id

/-- A step on a channel of the left side is one of a call that has returned, or on no channel of a
call. -/
theorem advance (h : s.Inv c ps) {serving : Bool} (hn : s.world.sys.next a = some sys)
    (hok : s.world.sys.Considerate a)
    (hsound : World.Sound { s.world with sys, serving })
    (hleft : ∀ ch st, a = .app .left (.call ch st) → ∀ (i : Nat) g q, s.world.calls[i]? = some g →
      s.asked[i]? = some q → ch ∈ g.own → Settled c ps q g)
    (hright : ∀ ch st, a ≠ .app .right (.call ch st)) :
    Service.Inv c ps ⟨{ s.world with sys, serving }, s.asked⟩ := by
  have hm := System.Moves.of_next hn
  refine ⟨.step a h.run hok hn, hsound, h.hijacked, h.length, fun i g q hg hq => ?_, h.apart,
    fun r hr => h.responds_step hm hr (hright r.chan), h.distinct, fun r hr => h.held_step hm hr,
    fun d hd hfree => h.unused_step hm hd hfree (hright d)⟩
  by_cases hin : ∃ ch ∈ g.own, ∃ st, a = .app .left (.call ch st)
  · obtain ⟨ch, hch, st, heq⟩ := hin
    exact .inl (hleft ch st heq i g q hg hq hch)
  · exact h.calls_step hm hg hq fun ch hch st heq => hin ⟨ch, hch, st, heq⟩

end Sessions

/-! ### Steps of the goroutines -/

theorem caller (h : s.Inv c ps) {i : Nat} {g g' : Goroutine (Reply α V E)} {b : Session.Act}
    {sys : System} (hg : s.world.calls[i]? = some g) (hs : g.Steps .left s.world.sys b g' sys)
    (htidy : (s.world.sys.sess .left).TidyClose b) (hf : full true s.world.sys .left b = true) :
    Service.Inv c ps ⟨{ s.world with sys, calls := s.world.calls.set i g' }, s.asked⟩ := by
  have hm := hs.moves
  obtain ⟨hn, hown', hb⟩ := hs.next
  have hi := System.inv h.run .left
  have hknown := (h.sound.calls g (List.mem_of_getElem? hg)).known
  obtain ⟨q, hq⟩ := h.asked_of hg
  have hp := h.going hg hq hs
  obtain ⟨hp', htarget⟩ := hp.step hi hknown hs ((System.Routed.of_run h.run).connected .left) hf
  have hok : s.world.sys.Considerate (.app .left b) := by
    refine ⟨htidy, ?_⟩
    rcases hb with rfl | ⟨ch, st, rfl⟩
    · trivial
    · exact usesConfirmed_call hn fun hh hd => by
        rw [h.sound.unaccepted ch (System.call_step hn).1 hd] at hh
        cases hh
  -- a channel of the call is an old one of its own, or new
  have hmem : ∀ ch ∈ g'.own, ch ∈ g.own ∨ (s.world.sys.sess .left).fresh ≤ ch := by
    intro ch hch
    rw [hown'] at hch
    refine (List.mem_append.mp hch).imp_right fun hnew => ?_
    cases b with
    | register => exact Nat.le_of_eq (List.mem_singleton.mp hnew).symm
    | _ => cases hnew
  have hsep : ∀ (j : Nat) u ch, s.world.calls[j]? = some u → j ≠ i → ch ∈ u.own → ch ∉ g'.own := by
    intro j u ch hu hne hch hch'
    rcases hmem ch hch' with hold | hnew
    · exact hne (h.apart j i u g ch hu hg hch hold)
    · exact absurd ((h.sound.calls u (List.mem_of_getElem? hu)).known ch hch) (Nat.not_lt.mpr hnew)
  refine ⟨.step _ h.run hok hn, h.sound.caller hg hs, h.hijacked, ?_, fun j u q' hu hq' => ?_,
    fun j k u u' ch hu hu' hch hch' => ?_, fun r hr => h.responds_step hm hr (by simp), h.distinct,
    fun r hr => h.held_step hm hr, fun d hd hfree => h.unused_step hm hd hfree (by simp)⟩
  · simpa using h.length
  · rcases getElem?_set_cases hu with ⟨rfl, rfl⟩ | ⟨hne, hu⟩
    · obtain rfl : q = q' := Option.some.inj (hq.symm.trans hq')
      exact .inr hp'
    · refine h.calls_step hm hu hq' fun ch hch st heq => ?_
      cases heq
      rcases htarget with hreg | ⟨ch', hch', st', heq⟩
      · cases hreg
      · cases heq
        exact hne (h.apart j i u g ch hu hg hch hch')
  · rcases getElem?_set_cases hu with ⟨rfl, rfl⟩ | ⟨hne, hold⟩
    · rcases getElem?_set_cases hu' with ⟨rfl, -⟩ | ⟨hne', hold'⟩
      · rfl
      · exact absurd hch (hsep k u' ch hold' hne' hch')
    · rcases getElem?_set_cases hu' with ⟨rfl, rfl⟩ | ⟨hne', hold'⟩
      · exact absurd hch' (hsep j u ch hold hne hch)
      · exact h.apart j k u u' ch hold hold' hch hch'

theorem responder (h : s.Inv c ps) {i : Nat} {r : Responding} {go : Goroutine Unit} {b : Session.Act}
    {sys : System} (hr : s.world.responds[i]? = some r) (hs : r.go.Steps .right s.world.sys b go sys)
    (htidy : (s.world.sys.sess .right).TidyClose b) (hf : full false s.world.sys .right b = true) :
    Service.Inv c ps
      ⟨{ s.world with sys, responds := s.world.responds.set i { r with go } }, s.asked⟩ := by
  have hm := hs.moves
  have hin := List.mem_of_getElem? hr
  have hrouted := System.Routed.of_run h.run
  obtain ⟨order, es, hperm, hb⟩ := h.responds r hin
  obtain ⟨⟨st, rfl⟩, es', hb'⟩ := hb.step hs (hrouted.connected .right) hf
  have hn := hs.next.1
  have hok : s.world.sys.Considerate (.app .right (.call r.chan st)) :=
    ⟨htidy, (h.sound.responds r hin).usesConfirmed hs⟩
  refine ⟨.step _ h.run hok hn, h.sound.responder (hrouted.running .right) hr hs, h.hijacked, h.length,
    fun j g q hg hq => h.calls_step hm hg hq (by simp), h.apart, fun u hu => ?_,
    fun j k u u' hu hu' heq => ?_, fun u hu => ?_, fun d hd hfree => ?_⟩
  · obtain ⟨j, hj⟩ := List.getElem?_of_mem hu
    rcases getElem?_set_cases hj with ⟨rfl, rfl⟩ | ⟨hne, hj⟩
    · exact ⟨order, es', hperm, hb'⟩
    · refine h.responds_step hm (List.mem_of_getElem? hj) fun st' heq => hne ?_
      simp only [System.Act.app.injEq, Session.Act.call.injEq, true_and] at heq
      exact h.distinct j i u r hj hr heq.1.symm
  · rcases getElem?_set_cases hu with ⟨rfl, rfl⟩ | ⟨hne, hold⟩
    · rcases getElem?_set_cases hu' with ⟨rfl, -⟩ | ⟨hne', hold'⟩
      · rfl
      · exact h.distinct j k r u' hr hold' heq
    · rcases getElem?_set_cases hu' with ⟨rfl, rfl⟩ | ⟨hne', hold'⟩
      · exact h.distinct j k u r hold hr heq
      · exact h.distinct j k u u' hold hold' heq
  · obtain ⟨j, hj⟩ := List.getElem?_of_mem hu
    rcases getElem?_set_cases hj with ⟨rfl, rfl⟩ | ⟨hne, hj⟩
    · show (sys.chan .right r.chan).held = true
      exact h.held_step hm hin
    · exact h.held_step hm (List.mem_of_getElem? hj)
  · have hfree' := free_of_set hr hfree
    refine h.unused_step hm hd hfree' fun st' heq => ?_
    cases heq
    exact hfree' r hin rfl

theorem call (h : s.Inv c ps) (a : Asked α V) :
    Service.Inv c ps ⟨{ s.world with
      calls := s.world.calls ++ [{ prog := caller.Call c a.path a.args a.reply }] }, s.asked ++ [a]⟩ := by
  have hsound : World.Sound { s.world with
      calls := s.world.calls ++ [{ prog := caller.Call c a.path a.args a.reply }] } :=
    h.sound.step ((System.Routed.of_run h.run).running .right)
      (a := .call c a.path a.args a.reply) rfl
  refine ⟨h.run, hsound, h.hijacked, by simp [h.length], fun i g q hg hq => ?_,
    fun i j g g' ch hg hg' hch hch' => ?_, h.responds, h.distinct, h.held, h.unused⟩
  · rcases getElem?_snoc_cases hg with ⟨rfl, rfl⟩ | ⟨hlt, hg⟩
    · rcases getElem?_snoc_cases hq with ⟨-, rfl⟩ | ⟨hlt, -⟩
      · exact .inr (.called rfl rfl rfl)
      · exact absurd h.length (Nat.ne_of_lt hlt)
    · rcases getElem?_snoc_cases hq with ⟨rfl, -⟩ | ⟨-, hq⟩
      · exact absurd h.length (Nat.ne_of_gt hlt)
      · exact h.calls i g q hg hq
  · rcases getElem?_snoc_cases hg with ⟨-, rfl⟩ | ⟨-, hold⟩
    · cases hch
    · rcases getElem?_snoc_cases hg' with ⟨-, rfl⟩ | ⟨-, hold'⟩
      · cases hch'
      · exact h.apart i j g g' ch hold hold' hch hch'

theorem accept (h : s.Inv c ps) {order : List (List α × Procedure α V E)} (hperm : order.Perm ps)
    {ch : Nat} {rest : List Nat} {sys : System} (hin : (s.world.sys.sess .right).incoming = ch :: rest)
    (hn : s.world.sys.next (.app .right .accept) = some sys) :
    Service.Inv c ps ⟨{ s.world with
      sys, responds := s.world.responds ++
        [⟨ch, { own := [ch], prog := Respond c (handlers c order) ch }⟩] }, s.asked⟩ := by
  have hm := System.Moves.of_next hn
  have hi := System.inv h.run .right
  obtain ⟨hlt, hdir⟩ := hi.incoming ch (by rw [hin]; exact List.mem_cons_self)
  -- nobody works on the channel yet
  have hunheld : (s.world.sys.chan .right ch).held = false :=
    (Session.Coming.of_run (System.any_run h.run .right)).unaccepted hin
  have hfree : ∀ r ∈ s.world.responds, r.chan ≠ ch := by
    rintro r hr rfl
    rw [h.held r hr] at hunheld
    cases hunheld
  have hheld : (sys.chan .right ch).held = true := by
    cases hm with
    | app ha hs ht =>
      cases ht with
      | accept hin' =>
        rw [hin] at hin'
        cases hin'
        simp [System.chan]
  have hbooks : Books false ch (Respond c (handlers c order) ch)
      { own := [ch], prog := Respond c (handlers c order) ch } (sys.chan .right ch) [] := by
    refine ⟨rfl, Respond_on order, .nil _, fun _ _ hmem => (by cases hmem), ?_⟩
    exact ((h.unused ch hlt hfree).keep (spares hm hi hlt (by simp))).ledger _
  refine ⟨.step (.app .right .accept) h.run ⟨trivial, trivial⟩ hn, h.sound.accept c _ hin hn, h.hijacked, h.length,
    fun i g q hg hq => h.calls_step hm hg hq (by simp), h.apart, fun r hr => ?_,
    fun i j r r' hr hr' heq => ?_, fun r hr => ?_, fun d hd hnot => ?_⟩
  · rcases List.mem_append.mp hr with hr | hr
    · exact h.responds_step hm hr (by simp)
    · obtain rfl := List.mem_singleton.mp hr
      exact ⟨order, [], hperm, hbooks⟩
  · rcases getElem?_snoc_cases hr with ⟨rfl, rfl⟩ | ⟨-, hold⟩
    · rcases getElem?_snoc_cases hr' with ⟨rfl, -⟩ | ⟨-, hold'⟩
      · rfl
      · exact absurd heq.symm (hfree r' (List.mem_of_getElem? hold'))
    · rcases getElem?_snoc_cases hr' with ⟨rfl, rfl⟩ | ⟨-, hold'⟩
      · exact absurd heq (hfree r (List.mem_of_getElem? hold))
      · exact h.distinct i j r r' hold hold' heq
  · rcases List.mem_append.mp hr with hr | hr
    · exact h.held_step hm hr
    · obtain rfl := List.mem_singleton.mp hr
      exact hheld
  · exact h.unused_step hm hd (fun r hr => hnot r (List.mem_append_left _ hr)) (by simp)

section Step

variable (hcall : Faithful c.call) (hheader : Faithful c.header) (hvalue : Faithful c.value)

include hcall hheader hvalue

/-- The application goes on with a channel that a call has returned. -/
theorem use (h : s.Inv c ps) {x : Side} {ch : Nat} {st : Channel.Step} {sys : System}
    (hg : s.world.given ch x = true) (hn : s.world.sys.next (.app x (.call ch st)) = some sys)
    (htidy : (s.world.sys.sess x).TidyClose (.call ch st)) :
    Service.Inv c ps ⟨{ s.world with sys }, s.asked⟩ := by
  obtain ⟨rfl, i, g, hi, hch⟩ := h.given_call hg
  obtain ⟨q, hq⟩ := h.asked_of hi
  have hset := h.settled hcall hheader hvalue hi hq hch
  have hok : s.world.sys.Considerate (.app .left (.call ch st)) := by
    refine ⟨htidy, usesConfirmed_call hn fun hh hd => ?_⟩
    rw [h.sound.unaccepted ch (System.call_step hn).1 hd] at hh
    cases hh
  refine h.advance hn hok (h.sound.use hg hn) (fun ch' st' heq j u q' hu hq' hch' => ?_) (by simp)
  cases heq
  obtain rfl := h.apart j i u g ch hu hi hch' (hset.channel ch hch)
  obtain rfl := Option.some.inj (hi.symm.trans hu)
  obtain rfl := Option.some.inj (hq.symm.trans hq')
  exact hset

theorem step (h : s.Inv c ps) {a : Act ps} (hok : Orderly s a) (hn : s.next c ps a = some s') :
    s'.Inv c ps := by
  have hrun := (System.Routed.of_run h.run).running .right
  cases a with
  | call a =>
    cases hn
    exact h.call a
  | accept order hperm =>
    obtain ⟨w, hw, hn⟩ := Option.bind_eq_some_iff.mp hn
    cases hn
    cases World.Moves.of_next hw with
    | accept _ _ hin hsys hs => exact h.accept hperm hin hsys
  | goesOn b =>
    cases b with
    | call | accept => cases hn
    | caller i b =>
      obtain ⟨w, hw, hn⟩ := Option.bind_eq_some_iff.mp hn
      cases hn
      cases World.Moves.of_next hw with
      | caller hg hs => exact h.caller hg (.of_next hs) hok.1 hok.2
    | responder i b =>
      obtain ⟨w, hw, hn⟩ := Option.bind_eq_some_iff.mp hn
      cases hn
      cases World.Moves.of_next hw with
      | responder hr hs => exact h.responder hr (.of_next hs) hok.1 hok.2
    | handOut i =>
      obtain ⟨w, hw, hn⟩ := Option.bind_eq_some_iff.mp hn
      cases hn
      cases World.Moves.of_next hw with
      | handOut hr hp hown =>
        -- no handler hijacks
        obtain ⟨order, es, -, hb⟩ := h.responds _ (List.mem_of_getElem? hr)
        have hon := hb.on.steps hb.steps
        rw [hp] at hon
        exact hon.1.elim
    | use x ch st =>
      obtain ⟨w, hw, hn⟩ := Option.bind_eq_some_iff.mp hn
      cases hn
      cases World.Moves.of_next hw with
      | use hg hsys => exact h.use hcall hheader hvalue hg hsys hok
    | acceptEOF =>
      obtain ⟨w, hw, hn⟩ := Option.bind_eq_some_iff.mp hn
      cases hn
      have hsound := h.sound.step hrun hw
      cases World.Moves.of_next hw with
      | acceptEOF hsys hs => exact h.advance hsys ⟨trivial, trivial⟩ hsound (by simp) (by simp)
    | loop x ok =>
      obtain ⟨w, hw, hn⟩ := Option.bind_eq_some_iff.mp hn
      cases hn
      have hsound := h.sound.step hrun hw
      cases World.Moves.of_next hw with
      | loop hsys => exact h.advance hsys ⟨hok, trivial⟩ hsound (by simp) (by simp)
    | deliver x =>
      obtain ⟨w, hw, hn⟩ := Option.bind_eq_some_iff.mp hn
      cases hn
      have hsound := h.sound.step hrun hw
      cases World.Moves.of_next hw with
      | deliver hsys => exact h.advance hsys trivial hsound (by simp) (by simp)

theorem of_run (run : Run (Service.next c ps) Orderly Service.start s) : s.Inv c ps := by
  refine Run.invariant (I := Service.Inv c ps) ?_ (fun s a s' _ h hok hn => h.step hcall hheader hvalue hok hn) run
  refine ⟨.start, .start, rfl, rfl, by simp [Service.start, World.start], by simp [Service.start, World.start],
    by simp [Service.start, World.start], by simp [Service.start, World.start],
    by simp [Service.start, World.start], fun d hd => absurd hd (Nat.not_lt_zero d)⟩

end Step

end Service.Inv

/-- **A call that returns has the answer of its own handler.** -/
theorem calls_answered (hcall : Faithful c.call) (hheader : Faithful c.header)
    (hvalue : Faithful c.value) (run : Run (Service.next c ps) Service.Orderly Service.start s) :
    s.world.calls.length = s.asked.length ∧
      ∀ (i : Nat) g a r, s.world.calls[i]? = some g → s.asked[i]? = some a → g.prog = .ret r →
        ∃ ch order, order.Perm ps ∧
          CameTo c a.path a.args a.reply ch (answerOf order a.path a.args) r := by
  have h := Service.Inv.of_run hcall hheader hvalue run
  refine ⟨h.length, fun i g a r hg ha hr => ?_⟩
  obtain ⟨r', ch, order, hr', hperm, hcame⟩ :=
    ((h.calls i g a hg ha).elim id fun hp => h.outcome hcall hheader hvalue hg hp hr).returned
  rw [hr] at hr'
  cases hr'
  exact ⟨ch, order, hperm, hcame⟩

end Inv

/-- Codecs that keep to short texts, and know no hijacked response. -/
def shortCodecs : Codecs UInt8 UInt8 Unit where
  call := ⟨fun call =>
      if call.ObjectPath = [] ∧ call.Method = [] ∧ call.Destination.length < 256 then .ok call.Destination
      else .error (),
    fun bs => .ok ⟨bs, [], []⟩⟩
  header := ⟨fun h =>
      if h.Hijacked ∨ 256 ≤ (h.Error.getD []).length then .error ()
      else .ok (h.Error.elim [] fun e => 0 :: e),
    fun bs => .ok { Error := if bs = [] then none else some bs.tail }⟩
  value := ⟨fun v => .ok v.toList, fun bs => .ok bs.head?⟩
  buffer := .ok
  isEOF _ := false

theorem shortCodecs_faithful :
    Faithful shortCodecs.call ∧ Faithful shortCodecs.header ∧ Faithful shortCodecs.value := by
  refine ⟨fun v b h => ?_, fun v b h => ?_, fun v b h => ?_⟩
  · simp only [shortCodecs] at h ⊢
    split at h
    · next hv =>
      cases h
      obtain ⟨d, o, m⟩ := v
      obtain ⟨rfl, rfl, hl⟩ := hv
      exact ⟨Nat.lt_trans hl (by decide), rfl⟩
    · cases h
  · simp only [shortCodecs] at h ⊢
    split at h
    · cases h
    · next hv =>
      cases h
      obtain ⟨e, hj⟩ := v
      cases e with
      | none => simp_all
      | some e =>
        simp only [Option.getD_some, not_or, Bool.not_eq_true, Nat.not_le] at hv
        refine ⟨?_, by simp [hv.1]⟩
        simp only [Option.elim_some, List.length_cons]
        omega
  · cases h
    cases v with
    | none => exact ⟨show 0 < 2 ^ 32 by decide, rfl⟩
    | some v => exact ⟨show 1 < 2 ^ 32 by decide, rfl⟩

/-- A server that counts one up. -/
def increments : List (List UInt8 × Procedure UInt8 UInt8 Unit) :=
  [([117, 112], fun _ args => .ok (args.toOption.join.map (· + 1)))]

namespace Service

def goOn (as : List (World.Act UInt8 UInt8 Unit)) : List (Act increments) := as.map .goesOn

/-- The steps of goroutines inside `Open`, `Write` and `Read`. -/
def opening (i ch : Nat) : List (World.Act UInt8 UInt8 Unit) :=
  [.caller i .register, .caller i (.call ch (.sendOpen true)), .deliver .right, .loop .right true,
    .loop .right true, .deliver .left, .loop .left true, .caller i (.call ch .opened)]

def writing (ch : Nat) (data : List UInt8) : List Session.Act :=
  [.call ch (.write data), .call ch (.reserve 0), .call ch (.sendData 0 true), .call ch (.reserve 0)]

def reading (ch n : Nat) : List Session.Act :=
  [.call ch (.read n), .call ch (.credit 0), .call ch (.sendAdjust 0)]

/-- A call of `up` with 5 and one of `x`, which nobody handles, side by side. -/
def twoCalls : List (Act increments) := List.flatten [
  [.call ⟨[117, 112], some 5, true⟩, .call ⟨[120], none, false⟩],
  goOn (opening 0 0 ++ opening 1 1),
  goOn ((writing 0 [0, 0, 0, 2, 117, 112]).map (.caller 0)),
  goOn ((writing 1 [0, 0, 0, 1, 120] ++ writing 1 [0, 0, 0, 0]).map (.caller 1)),
  goOn ((writing 0 [0, 0, 0, 1, 5]).map (.caller 0)),
  goOn (List.replicate 4 (.deliver .right)),
  [.accept _ (.refl _), .accept _ (.refl _)],
  goOn ((reading 1 4).map (.responder 1)),
  goOn ((reading 0 4 ++ reading 0 2 ++ reading 0 4 ++ reading 0 1).map (.responder 0)),
  goOn ((reading 1 1).map (.responder 1)),
  goOn ((writing 1 (frame (0 :: (Text.literal "handler does not exist for this destination: " ++ [120])))).map
    (.responder 1)),
  goOn ((writing 0 [0, 0, 0, 0] ++ writing 0 [0, 0, 0, 1, 6]).map (.responder 0)),
  goOn ((writing 1 [0, 0, 0, 0]).map (.responder 1)),
  goOn [.responder 1 (.call 1 .close), .responder 0 (.call 0 .close)],
  goOn (List.replicate 11 (.deliver .left) ++ List.replicate 6 (.loop .left true)),
  goOn (.deliver .left :: List.replicate 6 (.loop .left true)),
  goOn ((reading 1 4 ++ reading 1 47).map (.caller 1)),
  goOn ((reading 0 4 ++ Session.Act.call 0 (.read 0) :: reading 0 4 ++ reading 0 1).map (.caller 0)),
  goOn [.caller 1 (.call 1 .close), .caller 0 (.call 0 .close)]]

end Service

/-- Both calls return, one with 6 and one with the error for its path. -/
theorem calls_answered_run : ∃ s : Service UInt8 UInt8 Unit,
    (s.world.calls.map fun g => g.prog.result.map fun r => r.1.map fun resp => (resp.Reply, resp.header.Error)) =
      [some (some (some 6, none)),
        some (some (none, some (Text.literal "handler does not exist for this destination: " ++ [120])))] ∧
    ∀ (i : Nat) g a r, s.world.calls[i]? = some g → s.asked[i]? = some a → g.prog = .ret r →
      ∃ ch order, order.Perm increments ∧
        CameTo shortCodecs a.path a.args a.reply ch (answerOf order a.path a.args) r := by
  obtain ⟨s, run, hs⟩ := Run.of_exec (Service.next shortCodecs increments) Service.Orderly Service.start
    Service.twoCalls
    (fun s => decide ((s.world.calls.map fun g =>
        g.prog.result.map fun r => r.1.map fun resp => (resp.Reply, resp.header.Error)) =
      [some (some (some 6, none)),
        some (some (none, some (Text.literal "handler does not exist for this destination: " ++ [120])))]))
    (by decide +kernel)
  obtain ⟨hcall, hheader, hvalue⟩ := shortCodecs_faithful
  exact ⟨s, of_decide_eq_true hs, (calls_answered hcall hheader hvalue run).2⟩

end Qtalk.Rpc.Peer
