import Qtalk.Rpc.Peers

/-!
# Calls leave no channel behind

`Respond` reads from a channel before it does anything else with it, so the confirmation is
out when it writes, and it closes the channel on every way out. Whichever end closes
first, both ends send and handle a `CloseMessage`, and the channel leaves both lists
(`no_leaks`).
-/

namespace Qtalk.Rpc.Peer
open Qtalk.Codec Qtalk.Lib Qtalk.Mux

/-! ## The steps of a goroutine -/

/-- The steps of an operation. -/
inductive Stage (own : List Nat) : Place → Session.Act → Op → Prop where
  | register : Stage own .idle .register .Open
  | sendOpen (c : Nat) (ok : Bool) : Stage own (.opening c) (.call c (.sendOpen ok)) .Open
  | opened (c : Nat) : Stage own (.opening c) (.call c .opened) .Open
  | write {ch : Nat} {data : List UInt8} (h : ch ∈ own) :
      Stage own .idle (.call ch (.write data)) (.Write ch data)
  | reserve {ch : Nat} {data : List UInt8} (k : Nat) :
      Stage own .writing (.call ch (.reserve k)) (.Write ch data)
  | sendData {ch : Nat} {data : List UInt8} (k : Nat) (ok : Bool) :
      Stage own .writing (.call ch (.sendData k ok)) (.Write ch data)
  | read {ch n : Nat} (h : ch ∈ own) : Stage own .idle (.call ch (.read n)) (.Read ch n)
  | credit {ch n : Nat} (bs : List UInt8) (k : Nat) :
      Stage own (.reading bs) (.call ch (.credit k)) (.Read ch n)
  | sendAdjust {ch n : Nat} (bs : List UInt8) (k : Nat) :
      Stage own (.reading bs) (.call ch (.sendAdjust k)) (.Read ch n)
  | close {ch : Nat} (h : ch ∈ own) : Stage own .idle (.call ch .close) (.Close ch)

theorem Stage.of_does {own : List Nat} {place : Place} {b : Session.Act} {o : Op}
    (h : o.does own place b = true) : Stage own place b o := by
  cases o with
  | Open =>
    simp only [Op.does] at h
    split at h
    · exact .register
    · obtain rfl : _ = _ := by simpa using h
      exact .sendOpen _ _
    · obtain rfl : _ = _ := by simpa using h
      exact .opened _
    · cases h
  | Write ch data =>
    simp only [Op.does] at h
    split at h
    · obtain ⟨hown, rfl, rfl⟩ := by simpa using h
      exact .write hown
    · obtain rfl : _ = _ := by simpa using h
      exact .reserve _
    · obtain rfl : _ = _ := by simpa using h
      exact .sendData _ _
    · cases h
  | Read ch n =>
    simp only [Op.does] at h
    split at h
    · obtain ⟨hown, rfl, rfl⟩ := by simpa using h
      exact .read hown
    · obtain rfl : _ = _ := by simpa using h
      exact .credit _ _
    · obtain rfl : _ = _ := by simpa using h
      exact .sendAdjust _ _
    · cases h
  | Close ch =>
    simp only [Op.does] at h
    split at h
    · obtain ⟨hown, rfl⟩ := by simpa using h
      exact .close hown
    · cases h
  | handOut ch => cases h

variable {ρ : Type} {g g' : Goroutine ρ} {x : Side} {y y' : System} {b : Session.Act}

/-- What a goroutine does in a step: it goes on with its operation, or it has the answer. -/
inductive Goroutine.Steps (g : Goroutine ρ) (x : Side) (y : System) (b : Session.Act) :
    Goroutine ρ → System → Prop where
  | goesOn {o : Op} {k : o.Answer → Go ρ} {y' : System} {place : Place} (hp : g.prog = .op o k)
      (hs : Stage g.own g.place b o) (hn : y.next (.app x b) = some y')
      (ha : o.after x y g.place b = .inl place) :
      Steps g x y b { own := g.own ++ registered (y.sess x) b, prog := .op o k, place } y'
  | answered {o : Op} {k : o.Answer → Go ρ} {y' : System} {r : o.Answer} (hp : g.prog = .op o k)
      (hs : Stage g.own g.place b o) (hn : y.next (.app x b) = some y')
      (ha : o.after x y g.place b = .inr r) :
      Steps g x y b { own := g.own ++ registered (y.sess x) b, prog := k r } y'

theorem Goroutine.Steps.of_next (h : g.next x y b = some (g', y')) : g.Steps x y b g' y' := by
  unfold Goroutine.next at h
  split at h
  · cases h
  · next o k hp =>
    split at h
    · next hd =>
      split at h
      · cases h
      · next y₁ hn =>
        simp only at h
        split at h
        · next place ha =>
          cases h
          exact .goesOn hp (.of_does hd) hn ha
        · next r ha =>
          cases h
          exact .answered hp (.of_does hd) hn ha
    · cases h

/-- The step is one of the session, and registers a channel or is part of a call on one. -/
theorem Goroutine.Steps.next (h : g.Steps x y b g' y') :
    y.next (.app x b) = some y' ∧ g'.own = g.own ++ registered (y.sess x) b ∧
      (b = .register ∨ ∃ c st, b = .call c st) := by
  have act : ∀ {o : Op}, Stage g.own g.place b o → b = .register ∨ ∃ c st, b = .call c st := by
    intro o hs
    generalize g.place = here at hs
    cases hs with
    | register => exact Or.inl rfl
    | _ => exact Or.inr ⟨_, _, rfl⟩
  cases h with
  | goesOn hp hs hn ha => exact ⟨hn, rfl, act hs⟩
  | answered hp hs hn ha => exact ⟨hn, rfl, act hs⟩

/-- Nobody but `Server.Respond` accepts. -/
theorem Goroutine.Steps.ne_accept (h : g.Steps x y b g' y') (z : Side) :
    System.Act.app x b ≠ .app z .accept := by
  obtain ⟨-, -, hb⟩ := h.next
  rcases hb with rfl | ⟨c, st, rfl⟩
  · simp
  · simp

theorem Goroutine.Steps.moves (h : g.Steps x y b g' y') : System.Moves y (.app x b) y' :=
  .of_next h.next.1

/-- What holds of every goroutine at side `x`. -/
structure Goroutine.Sound (g : Goroutine ρ) (x : Side) (y : System) : Prop where
  known : ∀ c ∈ g.own, c < (y.sess x).fresh
  /-- a channel whose `OpenMessage` is not sent is the one it is opening -/
  opening : ∀ c ∈ g.own, (y.chan x c).opening = .registered → g.place = .opening c
  /-- and then it is inside `Open` -/
  inside : ∀ c, g.place = .opening c → ∃ k, g.prog = .op .Open k

/-- Only `Open` is left in the middle with a channel that is being opened. -/
theorem Op.after_opening {o : Op} {place : Place} {c : Nat}
    (h : o.after x y place b = .inl (.opening c)) : o = .Open := by
  cases o with
  | Open => rfl
  | Write ch data =>
    simp only [Op.after] at h
    repeat' split at h
    all_goals cases h
  | Read ch n =>
    simp only [Op.after] at h
    repeat' split at h
    all_goals cases h
  | Close ch => cases h
  | handOut ch => cases h

section Sound

variable {a : System.Act}

/-- The steps of others do not matter. -/
theorem Goroutine.Sound.keep (h : g.Sound x y) (hi : (y.sess x).Inv) (hm : System.Moves y a y') :
    g.Sound x y' where
  known c hc := Nat.lt_of_lt_of_le (h.known c hc) (hm.fresh x)
  opening c hc ho := h.opening c hc (hm.registered hi (h.known c hc) ho)
  inside := h.inside

theorem Goroutine.Sound.step (h : g.Sound x y) (hi : (y.sess x).Inv) (hs : g.Steps x y b g' y') :
    g'.Sound x y' := by
  have hm := hs.moves
  -- the new channel of a step, if there is one
  have known : ∀ c ∈ g.own ++ registered (y.sess x) b, c < (y'.sess x).fresh := by
    intro c hc
    rcases List.mem_append.mp hc with hc | hc
    · exact Nat.lt_of_lt_of_le (h.known c hc) (hm.fresh x)
    · cases b with
      | register =>
        have hn : y.next (.app x .register) = some y' := hs.next.1
        obtain rfl : c = (y.sess x).fresh := by simpa [registered] using hc
        rw [(System.register_step hn).1]
        exact Nat.lt_succ_self _
      | _ => cases hc
  -- an old one that is registered still is not the one the step is about
  have old : ∀ c ∈ g.own, (y'.chan x c).opening = .registered →
      ∀ o, Stage g.own g.place b o → y.next (.app x b) = some y' → False := by
    intro c hc ho o hst hn
    have hreg := hm.registered hi (h.known c hc) ho
    have hplace := h.opening c hc hreg
    rw [hplace] at hst
    cases hst with
    | sendOpen _ ok =>
      obtain ⟨-, r, hr, heq⟩ := System.call_step hn
      rw [heq] at ho
      simp only [Channel.step, Channel.sendOpen, hreg, if_true] at hr
      cases hr
      cases ok with
      | true => cases ho
      | false => cases ho
    | opened =>
      obtain ⟨-, r, hr, -⟩ := System.call_step hn
      simp [Channel.step, Channel.opened, hreg] at hr
  cases hs with
  | @goesOn o k _ place hp hst hn ha =>
    refine ⟨known, fun c hc ho => ?_, fun c hplace => ?_⟩
    · rcases List.mem_append.mp hc with hold | hnew
      · exact (old c hold ho o hst hn).elim
      · generalize g.place = here at hst ha
        cases hst with
        | register =>
          obtain rfl : c = (y.sess x).fresh := by simpa [registered] using hnew
          cases ha
          rfl
        | _ => cases hnew
    · obtain rfl : place = .opening c := hplace
      obtain rfl := Op.after_opening ha
      exact ⟨k, rfl⟩
  | @answered o k _ r hp hst hn ha =>
    refine ⟨known, fun c hc ho => ?_, fun c hplace => by cases hplace⟩
    rcases List.mem_append.mp hc with hold | hnew
    · exact (old c hold ho o hst hn).elim
    · generalize g.place = here at hst ha
      cases hst with
      | register => cases ha
      | _ => cases hnew

end Sound

/-- The channels a goroutine creates are outbound. -/
theorem Goroutine.Steps.inbound (hs : g.Steps x y b g' y') (hi : (y.sess x).Inv)
    (known : ∀ c ∈ g.own, c < (y.sess x).fresh) {c : Nat} (hc : c ∈ g'.own)
    (hd : (y'.chan x c).direction = .inbound) : c ∈ g.own ∧ (y.chan x c).direction = .inbound := by
  have hm := hs.moves
  obtain ⟨hn, hown, -⟩ := hs.next
  rw [hown] at hc
  rcases List.mem_append.mp hc with hold | hnew
  · exact ⟨hold, (hm.extends hi (known c hold)).direction.symm.trans hd⟩
  · cases b with
    | register =>
      obtain rfl : c = (y.sess x).fresh := by simpa [registered] using hnew
      obtain ⟨id, hid⟩ := (System.register_step hn).2
      rw [hid] at hd
      cases hd
    | _ => cases hnew

/-- A goroutine that is to close a channel still is, or this is the step in which it does. -/
theorem Goroutine.Steps.closes {Q : ρ → Prop} {ch : Nat} (hs : g.Steps x y b g' y') (hi : (y.sess x).Inv)
    (hc : ch < (y.sess x).fresh)
    (h : g.prog.Passes (· = .Close ch) Q ∨ (y.chan x ch).sentClose = true) :
    g'.prog.Passes (· = .Close ch) Q ∨ (y'.chan x ch).sentClose = true := by
  refine h.elim (fun hpass => ?_) fun hcl => Or.inr ((hs.moves.extends hi hc).sentClose hcl)
  have closed : ∀ o, o = .Close ch → Stage g.own g.place b o → y.next (.app x b) = some y' →
      (y'.chan x ch).sentClose = true := by
    intro o ho hst hn
    subst ho
    generalize g.place = here at hst
    cases hst with
    | close hown =>
      obtain ⟨-, res, hres, heq⟩ := System.call_step hn
      simp only [Channel.step] at hres
      split at hres
      · cases hres
        rw [heq]
        rcases (y.chan x ch).Close_eq with ⟨hcl, he⟩ | ⟨hcl, he⟩
        · rw [he]
          exact hcl
        · rw [he]
          rfl
      · cases hres
  cases hs with
  | goesOn hp hst hn ha =>
    left
    rw [hp] at hpass
    exact hpass
  | @answered o k _ res hp hst hn ha =>
    rw [hp] at hpass
    rcases hpass with ho | hk
    · exact Or.inr (closed o ho hst hn)
    · exact Or.inl (hk res)

/-- A call keeps to the order of the handshake where it only uses channels that have been
returned and confirmed. -/
theorem usesConfirmed_call {c : Nat} {st : Channel.Step} (hn : y.next (.app x (.call c st)) = some y')
    (h : (y.chan x c).held = true → (y.chan x c).direction = .inbound →
      (y.chan x c).sent.any Message.isConfirm = true) :
    System.UsesConfirmed y (.app x (.call c st)) := by
  obtain ⟨-, r, hr, -⟩ := System.call_step hn
  cases st with
  | write data | closeWrite | close =>
    simp only [Channel.step] at hr
    split at hr
    · next held => exact h held
    · cases hr
  | _ => trivial

/-! ## Responders -/

/-- What holds of a goroutine inside `Respond`. -/
structure Responding.Sound (r : Responding) (y : System) : Prop where
  sound : r.go.Sound .right y
  known : r.chan < (y.sess .right).fresh
  accepted : (y.chan .right r.chan).direction = .inbound
  only : ∀ c ∈ r.go.own, (y.chan .right c).direction = .inbound → c = r.chan
  closes : r.go.prog.Passes (· = .Close r.chan) (fun _ => False) ∨
    (y.chan .right r.chan).sentClose = true
  /-- before the confirmation it waits for its first bytes -/
  confirmed : (y.chan .right r.chan).sent.any Message.isConfirm = true ∨
    (r.go.place = .idle ∧ r.go.prog.First fun o => ∃ n, 0 < n ∧ o = .Read r.chan n)

section Responding

variable {r : Responding} {a : System.Act} {go : Goroutine Unit}

theorem Responding.Sound.keep (h : r.Sound y) (hi : (y.sess .right).Inv) (hm : System.Moves y a y') :
    r.Sound y' := by
  have hext := hm.extends hi h.known
  refine ⟨h.sound.keep hi hm, Nat.lt_of_lt_of_le h.known (hm.fresh .right),
    hext.direction.trans h.accepted, fun c hc hd => ?_, h.closes.imp_right hext.sentClose,
    h.confirmed.imp_left hext.any_sent⟩
  have hold := (hm.extends hi (h.sound.known c hc)).direction
  exact h.only c hc (hold.symm.trans hd)

/-- In any other operation than the first `Read` the channel is confirmed. -/
theorem Responding.Sound.past (h : r.Sound y) {o : Op} {k : o.Answer → Go Unit}
    (hp : r.go.prog = .op o k) (ho : ∀ n, o ≠ .Read r.chan n) :
    (y.chan .right r.chan).sent.any Message.isConfirm = true := by
  refine h.confirmed.resolve_right ?_
  rintro ⟨-, hfirst⟩
  rw [hp] at hfirst
  obtain ⟨n, -, heq⟩ := hfirst
  exact ho n heq

theorem Responding.Sound.usesConfirmed (h : r.Sound y) (hs : r.go.Steps .right y b go y') :
    System.UsesConfirmed y (.app .right b) := by
  have key : ∀ (o : Op) (k : o.Answer → Go Unit), r.go.prog = .op o k →
      Stage r.go.own r.go.place b o → y.next (.app .right b) = some y' →
      System.UsesConfirmed y (.app .right b) := by
    intro o k hp hst hn
    generalize r.go.place = here at hst
    cases hst with
    | write hown =>
      apply usesConfirmed_call hn
      intro _ hd
      rw [h.only _ hown hd]
      exact h.past hp (by simp)
    | close hown =>
      apply usesConfirmed_call hn
      intro _ hd
      rw [h.only _ hown hd]
      exact h.past hp (by simp)
    | _ => trivial
  cases hs with
  | goesOn hp hst hn => exact key _ _ hp hst hn
  | answered hp hst hn => exact key _ _ hp hst hn

theorem Responding.Sound.step {ok : System → System.Act → Prop} (h : r.Sound y)
    (run : Run System.next ok System.start y) (hr : (y.sess .right).running = true)
    (hs : r.go.Steps .right y b go y') : Responding.Sound { r with go } y' := by
  have hi := System.inv run .right
  have hm := hs.moves
  have hkeep := h.keep hi hm
  refine ⟨h.sound.step hi hs, hkeep.known, hkeep.accepted, fun c hc hd => ?_, ?_, ?_⟩
  · obtain ⟨hown, hin⟩ := hs.inbound hi h.sound.known hc hd
    exact h.only c hown hin
  · exact hs.closes hi h.known h.closes
  · -- what it has read came after the confirmation
    left
    refine (hm.extends hi h.known).any_sent ?_
    refine h.confirmed.elim id ?_
    rintro ⟨hidle, hfirst⟩
    have first : ∀ (o : Op) (k : o.Answer → Go Unit), r.go.prog = .op o k →
        Stage r.go.own r.go.place b o → y.next (.app .right b) = some y' →
        (y.chan .right r.chan).sent.any Message.isConfirm = true := by
      intro o k hp hst hn
      rw [hp] at hfirst
      obtain ⟨n, hpos, rfl⟩ := hfirst
      rw [hidle] at hst
      cases hst with
      | read hown =>
        obtain ⟨-, res, hres, -⟩ := System.call_step hn
        simp only [Channel.step] at hres
        split at hres
        · simp only [bind, Option.bind_eq_some_iff] at hres
          obtain ⟨ch, hread, -⟩ := hres
          exact System.read_confirmed run hr h.known h.accepted hpos hread
        · cases hres
    cases hs with
    | goesOn hp hst hn => exact first _ _ hp hst hn
    | answered hp hst hn => exact first _ _ hp hst hn

end Responding

/-! ## The two sides -/

namespace World

variable {α V E : Type} {w w' : World α V E}

/-- What holds in every state in which both sessions run. -/
structure Sound (w : World α V E) : Prop where
  run : Run System.next System.UsesConfirmed System.start w.sys
  /-- nobody accepts on the left side -/
  unaccepted : ∀ c < (w.sys.sess .left).fresh, (w.sys.chan .left c).direction = .inbound →
    (w.sys.chan .left c).held = false
  calls : ∀ g ∈ w.calls, g.Sound .left w.sys
  outbound : ∀ g ∈ w.calls, ∀ c ∈ g.own, (w.sys.chan .left c).direction = .outbound
  responds : ∀ r ∈ w.responds, r.Sound w.sys
  /-- what `Accept` has returned has a `Respond` -/
  served : ∀ d < (w.sys.sess .right).fresh, (w.sys.chan .right d).direction = .inbound →
    (w.sys.chan .right d).held = true → ∃ r ∈ w.responds, r.chan = d
  hijacked : ∀ c ∈ w.hijacked, c < (w.sys.sess .right).fresh ∧
    ((w.sys.chan .right c).direction = .inbound → (w.sys.chan .right c).sent.any Message.isConfirm = true)

theorem Sound.start : (start : World α V E).Sound where
  run := .start
  unaccepted c hc := absurd hc (Nat.not_lt_zero c)
  calls := by simp [World.start]
  outbound := by simp [World.start]
  responds := by simp [World.start]
  served d hd := absurd hd (Nat.not_lt_zero d)
  hijacked := by simp [World.start]

/-- A channel that the loop of side `x` has accepted is held only if it was before, unless
`Accept` returns it. -/
theorem held_only {a : System.Act} {ok : System → System.Act → Prop} (run : Run System.next ok System.start y)
    (hm : System.Moves y a y') {c : Nat} (hc : c < (y'.sess x).fresh)
    (hd : (y'.chan x c).direction = .inbound) (hh : (y'.chan x c).held = true) :
    (c < (y.sess x).fresh ∧ (y.chan x c).direction = .inbound ∧ (y.chan x c).held = true) ∨
      (a = .app x .accept ∧ (y.sess x).incoming.head? = some c) := by
  rcases Nat.lt_or_ge c (y.sess x).fresh with hlt | hge
  · have hdir := (hm.extends (System.inv run x) hlt).direction.symm.trans hd
    exact (System.held_before run hm hlt hdir hh).imp_left fun h => ⟨hlt, hdir, h⟩
  · rw [System.not_held_new hm hge hc] at hh
    cases hh

/-- A step of the sessions, in which the right side may accept a channel if there is a
`Respond` for it afterwards. -/
theorem Sound.advance (h : w.Sound) {a : System.Act} {sys : System} {responds : List Responding}
    (hn : w.sys.next a = some sys) (hok : w.sys.UsesConfirmed a) (ha : a ≠ .app .left .accept)
    (hold : ∀ r ∈ w.responds, r ∈ responds) (hnew : ∀ r ∈ responds, r ∈ w.responds ∨ r.Sound sys)
    (hacc : a = .app .right .accept → ∀ d ∈ (w.sys.sess .right).incoming.head?,
      ∃ r ∈ responds, r.chan = d) : Sound { w with sys, responds } := by
  have hm := System.Moves.of_next hn
  have hl := System.inv h.run .left
  have hr := System.inv h.run .right
  refine ⟨.step a h.run hok hn, fun c hc hd => ?_, fun g hg => (h.calls g hg).keep hl hm,
    fun g hg c hc => ?_, fun r hin => ?_, fun d hd hin hh => ?_, fun c hc => ?_⟩
  · rw [← Bool.not_eq_true]
    intro hh
    rcases held_only h.run hm hc hd hh with ⟨hc, hd, hh⟩ | ⟨heq, -⟩
    · rw [h.unaccepted c hc hd] at hh
      cases hh
    · exact ha heq
  · exact (hm.extends hl ((h.calls g hg).known c hc)).direction.trans (h.outbound g hg c hc)
  · rcases hnew r hin with hin | hs
    · exact (h.responds r hin).keep hr hm
    · exact hs
  · rcases held_only h.run hm hd hin hh with ⟨hd, hin, hh⟩ | ⟨heq, hhead⟩
    · obtain ⟨r, hr', heq⟩ := h.served d hd hin hh
      exact ⟨r, hold r hr', heq⟩
    · exact hacc heq d hhead
  · obtain ⟨hlt, hconf⟩ := h.hijacked c hc
    have hext := hm.extends hr hlt
    exact ⟨Nat.lt_of_lt_of_le hlt (hm.fresh .right), fun hd =>
      hext.any_sent (hconf (hext.direction.symm.trans hd))⟩

theorem Sound.advance_sys (h : w.Sound) {a : System.Act} {sys : System}
    (hn : w.sys.next a = some sys) (hok : w.sys.UsesConfirmed a) (ha : ∀ x, a ≠ .app x .accept) :
    Sound { w with sys } :=
  h.advance hn hok (ha .left) (fun _ => id) (fun _ => Or.inl) fun heq => absurd heq (ha .right)

/-- A goroutine is replaced by what it has become. -/
theorem Sound.setCall (h : w.Sound) {g : Goroutine (Reply α V E)} (hg : g.Sound .left w.sys)
    (hout : ∀ c ∈ g.own, (w.sys.chan .left c).direction = .outbound) (i : Nat) :
    Sound { w with calls := w.calls.set i g } :=
  ⟨h.run, h.unaccepted, forall_set h.calls hg, forall_set h.outbound hout, h.responds, h.served,
    h.hijacked⟩

theorem Sound.setRespond (h : w.Sound) {r r' : Responding} {i : Nat} (hr : w.responds[i]? = some r)
    (hs : r'.Sound w.sys) (hc : r'.chan = r.chan) :
    Sound { w with responds := w.responds.set i r' } := by
  refine ⟨h.run, h.unaccepted, h.calls, h.outbound, forall_set h.responds hs,
    fun d hd hin hh => ?_, h.hijacked⟩
  obtain ⟨q, hq, hd⟩ := h.served d hd hin hh
  obtain ⟨j, hj⟩ := List.getElem?_of_mem hq
  by_cases hij : i = j
  · subst hij
    rw [hr] at hj
    cases hj
    obtain ⟨hlt, -⟩ := List.getElem?_eq_some_iff.mp hr
    exact ⟨r', List.mem_of_getElem? (List.getElem?_set_self hlt), hc.trans hd⟩
  · refine ⟨q, List.mem_of_getElem? (i := j) ?_, hd⟩
    rw [List.getElem?_set_ne hij]
    exact hj

/-- `Server.Respond` accepts a channel. -/
theorem Sound.accept (h : w.Sound) [DecidableEq α] [Text α] (c : Codecs α V E)
    (order : List (List α × Handler α)) {ch : Nat} {rest : List Nat}
    (hin : (w.sys.sess .right).incoming = ch :: rest) {sys : System}
    (hn : w.sys.next (.app .right .accept) = some sys) :
    Sound { w with
      sys, responds := w.responds ++ [⟨ch, { own := [ch], prog := Respond c order ch }⟩] } := by
  have hm := System.Moves.of_next hn
  have hr := System.inv h.run .right
  obtain ⟨hlt, hdir⟩ := hr.incoming ch (by rw [hin]; exact List.mem_cons_self)
  have hlt' := Nat.lt_of_lt_of_le hlt (hm.fresh .right)
  have hready := (System.acceptor h.run hlt hdir).ready
  refine h.advance (a := .app .right .accept) hn trivial (by simp)
    (fun r hr => List.mem_append_left _ hr) (fun r hr' => ?_) fun _ d hd => ?_
  · refine (List.mem_append.mp hr').imp_right fun hnew => ?_
    obtain rfl := List.mem_singleton.mp hnew
    refine ⟨⟨fun c hc => ?_, fun c hc ho => ?_, fun c hplace => by cases hplace⟩, hlt',
      (hm.extends hr hlt).direction.trans hdir, fun c hc _ => List.mem_singleton.mp hc,
      Or.inl (Respond_closes c order ch), Or.inr ⟨rfl, Respond_reads c order ch⟩⟩
    · rw [List.mem_singleton.mp hc]
      exact hlt'
    · rw [List.mem_singleton.mp hc] at ho
      rw [hm.registered hr hlt ho] at hready
      cases hready
  · rw [hin] at hd
    cases hd
    exact ⟨_, List.mem_append_right _ (List.mem_singleton_self _), rfl⟩

/-- A call of the left side goes on. -/
theorem Sound.caller (h : w.Sound) {i : Nat} {g g' : Goroutine (Reply α V E)} {sys : System}
    (hg : w.calls[i]? = some g) (hs : g.Steps .left w.sys b g' sys) :
    Sound { w with sys, calls := w.calls.set i g' } := by
  have hl := System.inv h.run .left
  have hin := List.mem_of_getElem? hg
  obtain ⟨hsys, -, hb⟩ := hs.next
  have hok : w.sys.UsesConfirmed (.app .left b) := by
    rcases hb with rfl | ⟨c, st, rfl⟩
    · trivial
    · apply usesConfirmed_call hsys
      intro hh hd
      rw [h.unaccepted c (System.call_step hsys).1 hd] at hh
      cases hh
  refine (h.advance_sys hsys hok hs.ne_accept).setCall ((h.calls g hin).step hl hs) (fun c hc => ?_) i
  cases hd : (sys.chan .left c).direction with
  | outbound => rfl
  | inbound =>
    obtain ⟨hc, hd⟩ := hs.inbound hl (h.calls g hin).known hc hd
    rw [h.outbound g hin c hc] at hd
    cases hd

/-- A `Respond` goes on. -/
theorem Sound.responder (h : w.Sound) (hr : (w.sys.sess .right).running = true) {i : Nat}
    {r : Responding} {go : Goroutine Unit} {sys : System} (hi : w.responds[i]? = some r)
    (hs : r.go.Steps .right w.sys b go sys) :
    Sound { w with sys, responds := w.responds.set i { r with go } } := by
  have hin := h.responds r (List.mem_of_getElem? hi)
  exact (h.advance_sys hs.next.1 (hin.usesConfirmed hs) hs.ne_accept).setRespond hi
    (hin.step h.run hr hs) rfl

/-- A `Respond` hands out a channel, which is confirmed if it is an accepted one. -/
theorem Sound.handOut (h : w.Sound) {i ch : Nat} {r : Responding} {k : Unit → Go Unit}
    (hi : w.responds[i]? = some r) (hp : r.go.prog = .op (.handOut ch) k) (hown : ch ∈ r.go.own) :
    Sound { w with
      responds := w.responds.set i { r with go := { own := r.go.own, prog := k () } }
      hijacked := w.hijacked ++ [ch] } := by
  have hin := h.responds r (List.mem_of_getElem? hi)
  have hconf := hin.past hp (by simp)
  have hpass : (k ()).Passes (· = .Close r.chan) (fun _ => False) ∨
      (w.sys.chan .right r.chan).sentClose = true := by
    refine hin.closes.imp_left fun hpass => ?_
    rw [hp] at hpass
    exact hpass.resolve_left (by simp) ()
  have hopen : ∀ c, r.go.place ≠ .opening c := by
    intro c hplace
    obtain ⟨k', hk⟩ := hin.sound.inside c hplace
    rw [hp] at hk
    cases hk
  have hs : Responding.Sound { r with go := { own := r.go.own, prog := k () } } w.sys :=
    ⟨⟨hin.sound.known, fun c hc ho => (hopen c (hin.sound.opening c hc ho)).elim, by simp⟩,
      hin.known, hin.accepted, hin.only, hpass, Or.inl hconf⟩
  have hset := h.setRespond hi hs rfl
  refine ⟨hset.run, hset.unaccepted, hset.calls, hset.outbound, hset.responds, hset.served,
    fun c hc => ?_⟩
  rcases List.mem_append.mp hc with hold | hnew
  · exact h.hijacked c hold
  · obtain rfl := List.mem_singleton.mp hnew
    refine ⟨hin.sound.known _ hown, fun hd => ?_⟩
    rw [hin.only _ hown hd]
    exact hconf

/-- Another goroutine uses a channel that was handed out. -/
theorem Sound.use (h : w.Sound) {c : Nat} {st : Channel.Step} {sys : System}
    (hg : w.given c x = true) (hn : w.sys.next (.app x (.call c st)) = some sys) :
    Sound { w with sys } := by
  refine h.advance_sys hn (usesConfirmed_call hn fun hh hd => ?_) (by simp)
  cases x with
  | left =>
    rw [h.unaccepted c (System.call_step hn).1 hd] at hh
    cases hh
  | right =>
    have hin : c ∈ w.hijacked := by simpa [given] using hg
    exact (h.hijacked c hin).2 hd

section Runs

variable [DecidableEq α] [Text α]

theorem Sound.step (h : w.Sound) (hr : (w.sys.sess .right).running = true) {a : Act α V E}
    (hn : w.next a = some w') : w'.Sound := by
  cases Moves.of_next hn with
  | call c path args reply =>
    refine ⟨h.run, h.unaccepted, fun g hg => ?_, fun g hg => ?_, h.responds, h.served, h.hijacked⟩
    · rcases List.mem_append.mp hg with hold | hnew
      · exact h.calls g hold
      · rw [List.mem_singleton.mp hnew]
        exact ⟨by simp, by simp, by simp⟩
    · rcases List.mem_append.mp hg with hold | hnew
      · exact h.outbound g hold
      · rw [List.mem_singleton.mp hnew]
        simp
  | caller hg hs => exact h.caller hg (.of_next hs)
  | accept c order hin hsys => exact h.accept c order hin hsys
  | acceptEOF hsys =>
    have hkeep := h.advance_sys hsys trivial (by simp)
    exact ⟨hkeep.run, hkeep.unaccepted, hkeep.calls, hkeep.outbound, hkeep.responds, hkeep.served,
      hkeep.hijacked⟩
  | responder hi hs => exact h.responder hr hi (.of_next hs)
  | handOut hi hp hown => exact h.handOut hi hp hown
  | use hg hsys => exact h.use hg hsys
  | loop hsys => exact h.advance_sys hsys trivial (by simp)
  | deliver hsys => exact h.advance_sys hsys trivial (by simp)

/-- A step leaves the sessions alone or is a step of theirs. -/
theorem Moves.sys {a : Act α V E} (h : w.Moves a w') :
    w'.sys = w.sys ∨ ∃ b, w.sys.next b = some w'.sys := by
  cases h with
  | call | handOut => exact Or.inl rfl
  | caller _ hs | responder _ hs => exact Or.inr ⟨_, (Goroutine.Steps.of_next hs).next.1⟩
  | accept _ _ _ hn | acceptEOF hn | use _ hn | loop hn | deliver hn => exact Or.inr ⟨_, hn⟩

variable {ok : World α V E → Act α V E → Prop}

theorem sys_run (run : Run next ok start w) : Run System.next anyStep System.start w.sys := by
  refine Run.invariant (I := fun w => Run System.next anyStep System.start w.sys) .start
    (fun w a w' _ h _ hn => ?_) run
  rcases (Moves.of_next hn).sys with heq | ⟨b, hb⟩
  · rw [heq]
    exact h
  · exact .step b h trivial hb

/-- While the session of the server runs. -/
theorem Sound.of_run (run : Run next ok World.start w) :
    (w.sys.sess .right).running = true → w.Sound := by
  refine Run.invariant (I := fun w => (w.sys.sess .right).running = true → w.Sound)
    (fun _ => .start) (fun w a w' hw h _ hn hr => ?_) run
  have hsys := sys_run hw
  have hbefore : (w.sys.sess .right).running = true := by
    rcases (Moves.of_next hn).sys with heq | ⟨b, hb⟩
    · rw [← heq]
      exact hr
    · exact (System.Moves.of_next hb).running (System.inv hsys)
        (fun x => Session.plans (System.any_run hsys x)) hr
  exact (h hbefore).step hbefore hn

end Runs

/-! ## When everything has come to rest -/

/-- Both loops run and wait, nothing is in flight or waits for `Accept`, and every `Call`
and every `Respond` has returned. -/
structure Quiescent (w : World α V E) : Prop where
  running : ∀ x, (w.sys.sess x).running = true
  waits : ∀ x, (w.sys.sess x).Waits
  wire : ∀ x, w.sys.wire x = []
  incoming : (w.sys.sess .right).incoming = []
  called : ∀ g ∈ w.calls, g.Returned
  responded : ∀ r ∈ w.responds, r.go.Returned

variable {c d : Nat}

/-- A channel that the loop of the server has accepted is closed by its `Respond`. -/
theorem Sound.sentClose (h : w.Sound) (hq : w.Quiescent) (hd : d < (w.sys.sess .right).fresh)
    (hdir : (w.sys.chan .right d).direction = .inbound) : (w.sys.chan .right d).sentClose = true := by
  have hi := System.inv h.run .right
  -- it has been taken by `Accept`: the loop does not hold it back, and the queue is empty
  have hheld : (w.sys.chan .right d).held = true := by
    rcases Session.offered (System.any_run h.run .right) d hd hdir with hop | hin | hheld
    · have hfull := (hi.waits (hq.waits .right) d).2.2 hop
      rw [hq.incoming] at hfull
      cases hfull
    · rw [hq.incoming] at hin
      cases hin
    · exact hheld
  obtain ⟨r, hr, rfl⟩ := h.served d hd hdir hheld
  refine (h.responds r hr).closes.resolve_left fun hpass => ?_
  obtain ⟨u, hret⟩ := Option.isSome_iff_exists.mp (hq.responded r hr)
  rw [Program.result_eq_some.mp hret] at hpass
  exact hpass

/-- The channel of a call has a peer at the server. -/
theorem Sound.has_peer (h : w.Sound) (hq : w.Quiescent) {g : Goroutine (Reply α V E)}
    (hg : g ∈ w.calls) (hc : c ∈ g.own) : ∃ d, w.sys.peer .left c = some d := by
  have hs := h.calls g hg
  -- a call that has returned is not inside `Open`
  have hopen : (w.sys.chan .left c).opening ≠ .registered := by
    intro ho
    obtain ⟨k, hk⟩ := hs.inside c (hs.opening c hc ho)
    have hret := hq.called g hg
    rw [Goroutine.Returned, hk] at hret
    cases hret
  exact System.has_peer h.run hq.running hq.wire (hs.known c hc)
    (Session.opensFirst (System.any_run h.run .left) c (hs.known c hc) (h.outbound g hg c hc) hopen)

/-- A call for `up` with an argument is its destination; a header is the flag and the text. -/
def flatCodecs : Codecs UInt8 UInt8 Unit where
  call := ⟨fun call => .ok call.Destination, fun bs => .ok ⟨bs, [], []⟩⟩
  header := ⟨fun h => .ok ((if h.Hijacked then 1 else 0) :: h.Error.getD []),
    fun bs => .ok ⟨if bs.tail = [] then none else some bs.tail, bs.head? = some 1⟩⟩
  value := ⟨fun v => .ok v.toList, fun bs => .ok bs.head?⟩
  buffer := .ok
  isEOF _ := false

/-- The steps of a goroutine inside `Write`, and inside `Read`, of channel 0. -/
def writing (data : List UInt8) : List Session.Act :=
  [.call 0 (.write data), .call 0 (.reserve 0), .call 0 (.sendData 0 true), .call 0 (.reserve 0)]

def reading (n : Nat) : List Session.Act :=
  [.call 0 (.read n), .call 0 (.credit 0), .call 0 (.sendAdjust 0)]

/-- One call for `up`, whose handler returns 7 without reading the argument. -/
def oneCall : List (Act UInt8 UInt8 Unit) := List.flatten [
  [.call flatCodecs [117, 112] (some 5) true, .caller 0 .register,
    .caller 0 (.call 0 (.sendOpen true)), .deliver .right, .loop .right true, .loop .right true,
    .deliver .left, .loop .left true, .caller 0 (.call 0 .opened)],
  (writing [0, 0, 0, 2, 117, 112]).map (.caller 0),
  (writing [0, 0, 0, 1, 5]).map (.caller 0),
  [.deliver .right, .deliver .right, .accept flatCodecs [([117, 112], fun _ ch => do
    let _ ← responder.Return flatCodecs ch (.ok (some 7)))]],
  (reading 4).map (.responder 0),
  (reading 2).map (.responder 0),
  (writing [0, 0, 0, 1, 0]).map (.responder 0),
  (writing [0, 0, 0, 1, 7]).map (.responder 0),
  [.responder 0 (.call 0 .close), .responder 0 (.call 0 .close)],
  List.replicate 5 (.deliver .left),
  List.replicate 6 (.loop .left true),
  ([4, 1, 4, 1].flatMap reading).map (.caller 0),
  [.caller 0 (.call 0 .close), .deliver .right],
  List.replicate 6 (.loop .right true)]

/-- Calls leak no channels: in a quiescent state the channels that the calls have opened are
in the list of neither session. -/
theorem no_leaks [DecidableEq α] [Text α] {ok : World α V E → Act α V E → Prop}
    (run : Run next ok start w) (hq : w.Quiescent) :
    ∀ g ∈ w.calls, ∀ c ∈ g.own, some c ∉ (w.sys.sess .left).chanList ∧
      ∃ d, w.sys.peer .left c = some d ∧ some d ∉ (w.sys.sess .right).chanList := by
  intro g hg c hc
  have h := Sound.of_run run (hq.running .right)
  obtain ⟨d, hp⟩ := h.has_peer hq hg hc
  have hw := System.Wired.of_run h.run
  have hd := (hw.lt .left c d hp).2
  have hdir := (hw.outbound_iff hp).mp (h.outbound g hg c hc)
  obtain ⟨hright, hleft⟩ := System.ends_of_close h.run hq.running hq.wire hq.waits
    (hw.symm .left c d hp) (h.sentClose hq hd hdir)
  exact ⟨fun hin => hleft ((System.inv h.run .left).listed_of_mem hin), d, hp,
    fun hin => hright ((System.inv h.run .right).listed_of_mem hin)⟩

/-- The run of one call ends in such a state, with the reply. -/
theorem no_leaks_run : ∃ w : World UInt8 UInt8 Unit, Run next anyStep start w ∧ w.Quiescent ∧
    (∃ g ∈ w.calls, g.own = [0] ∧
      g.prog.result = some (some { header := {}, Reply := some 7, Channel := 0 }, none)) ∧
    ∀ g ∈ w.calls, ∀ c ∈ g.own, some c ∉ (w.sys.sess .left).chanList ∧
      ∃ d, w.sys.peer .left c = some d ∧ some d ∉ (w.sys.sess .right).chanList := by
  obtain ⟨w, run, hw⟩ := Run.of_exec next anyStep start oneCall
    (fun w => decide (((w.sys.sess .left).running = true ∧ (w.sys.sess .right).running = true) ∧
      ((w.sys.sess .left).ops = [] ∧ (w.sys.sess .right).ops = []) ∧
      (w.sys.wire .left = [] ∧ w.sys.wire .right = []) ∧ (w.sys.sess .right).incoming = [] ∧
      (∀ g ∈ w.calls, g.Returned) ∧ (∀ r ∈ w.responds, r.go.Returned) ∧
      ∃ g ∈ w.calls, g.own = [0] ∧
        g.prog.result = some (some { header := {}, Reply := some 7, Channel := 0 }, none)))
    (by decide +kernel)
  simp only [decide_eq_true_eq] at hw
  obtain ⟨⟨hrl, hrr⟩, ⟨hol, hor⟩, ⟨hwl, hwr⟩, hin, hcalls, hresponds, hreply⟩ := hw
  have hq : w.Quiescent := by
    refine ⟨fun x => ?_, fun x ok => ?_, fun x => ?_, hin, hcalls, hresponds⟩
    · cases x with
      | left => exact hrl
      | right => exact hrr
    · cases x with
      | left => rw [Session.loopStep, hol]
      | right => rw [Session.loopStep, hor]
    · cases x with
      | left => exact hwl
      | right => exact hwr
  exact ⟨w, run, hq, hreply, no_leaks run hq⟩

end World

end Qtalk.Rpc.Peer
