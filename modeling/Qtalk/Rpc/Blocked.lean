import Qtalk.Rpc.Service
import Qtalk.System.Standstill

/-!
# Goroutines that cannot go on

A goroutine that alone uses a channel has one `Read` in progress there at most (`Place.reads`), so it
finds its way out of every operation but two: a `Read` with nothing to read, and a `Write` with
nothing left of the window (`Books.stalled`). And what a `Respond` does at a point tells how much of
the request it has read (`Respond_asks`).
-/

namespace Qtalk.Rpc.Peer
open Qtalk.Codec Qtalk.Lib Qtalk.Mux Program

variable {α V E ρ : Type}

/-! ## How far a program has read -/

/-- With `inp` to be read from the channel, each operation of the program has `P` with what is left
of it. -/
def Asks (ch : Nat) (inp : List UInt8) (P : Op → List UInt8 → Prop) (p : Go ρ) : Prop :=
  ∀ es o k rest, Steps p es (.op o k) → FullReads false ch es → inp = received ch es ++ rest → P o rest

namespace Asks

variable {ch : Nat} {inp : List UInt8} {P : Op → List UInt8 → Prop}

theorem ret (a : ρ) : Asks ch inp P (.ret a) := by
  intro es o k rest hs _ _
  obtain ⟨-, hq⟩ := hs.ret_cases
  cases hq

/-- An operation that reads nothing. -/
theorem op {o : Op} {k : o.Answer → Go ρ} (ho : P o inp) (hnone : ∀ r, Done.inp ch ⟨o, r⟩ = [])
    (hk : ∀ r, Asks ch inp P (k r)) : Asks ch inp P (.op o k) := by
  intro es o' k' rest hs full hr
  rcases hs.op_cases with ⟨rfl, hq⟩ | ⟨r, es', rfl, hs'⟩
  · cases hq
    rw [hr] at ho
    exact ho
  · refine hk r es' o' k' rest hs' full.tail ?_
    rwa [received, List.flatMap_cons, hnone] at hr

theorem read {n : Nat} {k : Except SessionError (List UInt8) → Go ρ} (ho : P (.Read ch n) inp)
    (ok : ∀ bs rest, inp = bs ++ rest → bs.length = n → Asks ch rest P (k (.ok bs))) :
    Asks ch inp P (.op (.Read ch n) k) := by
  intro es o' k' rest hs full hr
  rcases hs.op_cases with ⟨rfl, hq⟩ | ⟨r, es', rfl, hs'⟩
  · cases hq
    rw [hr] at ho
    exact ho
  · rcases full n r List.mem_cons_self with ⟨hf, -⟩ | ⟨bs, rfl, hlen⟩
    · cases hf
    · rw [received, List.flatMap_cons, ← received, Done.inp, if_pos rfl, List.append_assoc] at hr
      exact ok bs _ hr hlen es' o' k' rest hs' full.tail rfl

theorem bind {σ : Type} {p : Go σ} {f : σ → Go ρ} (h : Asks ch inp P p)
    (hf : ∀ a rest, Asks ch rest P (f a)) : Asks ch inp P (p >>= f) := by
  intro es o k rest hs full hr
  rcases hs.bind_cases with ⟨p', hp, hq⟩ | ⟨a, es₁, es₂, rfl, -, hq⟩
  · cases p' with
    | ret a => exact hf a rest [] o k rest (hq ▸ .nil _) (fun _ _ hm => by cases hm) rfl
    | op o' k' =>
      cases hq
      exact h es o k' rest hp full hr
  · have full₂ : FullReads false ch es₂ := fun n a hm => full n a (List.mem_append_right _ hm)
    exact hf a _ es₂ o k rest hq full₂ rfl

theorem Encode {V' : Type} {f : Format V' E} {v : V'} {g : Option (CallError α E) → Go ρ}
    (hw : ∀ data, P (.Write ch data) inp) (hg : ∀ e, Asks ch inp P (g e)) :
    Asks ch inp P (Peer.Encode f ch v >>= g) := by
  rw [Peer.Encode]
  cases f.encode v with
  | error e => exact hg _
  | ok b => exact Asks.op (hw _) (fun _ => rfl) fun r => hg _

theorem Decode {V' : Type} {dec : List UInt8 → Except E V'} {g : Except (CallError α E) V' → Go ρ}
    {x : Except E (List UInt8)} {rest : List (Except E (List UInt8))}
    (hx : ∀ b, x = .ok b → b.length < 2 ^ 32) (h4 : P (.Read ch 4) (frames (x :: rest)))
    (hn : ∀ b, x = .ok b → P (.Read ch b.length) (b ++ frames rest))
    (ok : ∀ b, x = .ok b → Asks ch (frames rest) P (g ((dec b).mapError .codec))) :
    Asks ch (frames (x :: rest)) P (Peer.Decode dec ch >>= g) := by
  refine Asks.read h4 fun p inp₁ hp hlen => ?_
  have hfill : fillBuffer 4 p = p := hlen ▸ fillBuffer_full p
  cases x with
  | error e =>
    rw [frames] at hp
    rw [(List.append_eq_nil_iff.mp hp.symm).1] at hlen
    cases hlen
  | ok b =>
    -- the four bytes are the length of what follows
    have hhead : beBytes (UInt32.ofNat b.length) ++ (b ++ frames rest) = p ++ inp₁ := by
      rw [← List.append_assoc, ← frame, ← frames]
      exact hp
    obtain ⟨rfl, rfl⟩ := List.append_inj hhead (by rw [beBytes_length, hlen])
    have hsize : (beWord (fillBuffer 4 (beBytes (UInt32.ofNat b.length)))).toNat = b.length := by
      rw [hfill, ← List.append_nil (beBytes _), beWord_beBytes, UInt32.toNat_ofNat']
      exact Nat.mod_eq_of_lt (hx b rfl)
    refine Asks.read (by rw [hsize]; exact hn b rfl) fun bs inp₂ hbs hlen' => ?_
    rw [hsize] at hlen'
    obtain ⟨rfl, rfl⟩ := List.append_inj hbs hlen'.symm
    show Asks ch _ P (g ((dec (fillBuffer _ b)).mapError .codec))
    rw [hsize, fillBuffer_full]
    exact ok b rfl

end Asks

section Respond

variable [DecidableEq α] [Text α] {c : Codecs α V E} {ch : Nat} {path : List α} {args : Option V}
  {order : List (List α × Procedure α V E)}

/-- What a `Respond` does with `rest` left of a request: it waits for more only if there is more, and
it answers when it has read all, unless there is no handler. -/
def Heeding (c : Codecs α V E) (order : List (List α × Procedure α V E)) (path : List α)
    (args : Option V) : Op → List UInt8 → Prop
  | .Read _ n, rest => (∀ x ∈ request c path args, ∃ b, x = .ok b) → rest = [] → n = 0
  | .Write _ _, rest => rest = [] ∨ ∃ text, Rpc.Respond order (callOf path) = .missing text
  | _, _ => True

theorem Return_asks {inp : List UInt8} (v : Result α V)
    (h : inp = [] ∨ ∃ text, Rpc.Respond order (callOf path) = .missing text) :
    Asks ch inp (Heeding c order path args) ((responder.Return c ch v).run {}) := by
  rw [Return_run]
  refine Asks.Encode (fun _ => h) fun e => ?_
  cases e with
  | some e => exact Asks.ret _
  | none =>
    refine Asks.Encode (fun _ => h) fun e => ?_
    cases e with
    | some e => exact Asks.ret _
    | none => exact Asks.op trivial (fun _ => rfl) fun _ => Asks.ret _

theorem Respond_asks (hc : Faithful c.call) (hv : Faithful c.value) :
    Asks ch (frames (request c path args)) (Heeding c order path args)
      (Respond c (Service.handlers c order) ch) := by
  have four : ∀ {x : Except E (List UInt8)} {rest}, x ∈ request c path args →
      Heeding c order path args (.Read ch 4) (frames (x :: rest)) := by
    intro x rest hx hok hnil
    obtain ⟨b, rfl⟩ := hok x hx
    rw [frames, frame] at hnil
    cases hnil
  have size : ∀ {b : List UInt8} {rest}, Heeding c order path args (.Read ch b.length) (b ++ rest) := by
    intro b rest _ hnil
    rw [(List.append_eq_nil_iff.mp hnil).1]
    rfl
  refine Asks.bind ?_ fun _ rest => Asks.op trivial (fun _ => rfl) fun _ => Asks.ret _
  refine Asks.Decode (fun b hb => (hc _ b hb).1) (four List.mem_cons_self) (fun _ _ => size)
    fun b hb => ?_
  rw [(hc _ b hb).2]
  dsimp only [Except.mapError]
  rw [Service.handlers, Respond_map]
  cases hd : Rpc.Respond order (callOf path) with
  | rejected e => exact Asks.ret _
  | missing text => exact Asks.bind (Return_asks _ (.inr ⟨text, hd⟩)) fun _ _ => Asks.ret _
  | answered f call =>
    refine Asks.bind ?_ fun _ _ => Asks.ret _
    show Asks ch _ _ ((answering c f call ch).run {})
    rw [answering_run]
    refine Asks.Decode (fun b hb => (hv _ b hb).1) (four (List.mem_cons_of_mem _ List.mem_cons_self))
      (fun _ _ => size) fun b hb => ?_
    exact Asks.bind (Return_asks _ (.inl rfl)) fun _ _ => Asks.ret _

end Respond

/-! ## Reads in progress -/

/-- The `Read` calls in progress at this place. -/
def Place.reads : Place → Nat
  | .reading _ => 1
  | _ => 0

/-- Those a step leaves. -/
def Place.readsAfter {σ : Type} : Place ⊕ σ → Nat := Sum.elim Place.reads fun _ => 0

section Reads

variable {x : Side} {y y' : System} {b : Session.Act} {ch : Nat}

/-- A step of a call that is none of a `Read` leaves those alone. -/
theorem reads_kept {st : Channel.Step} (hn : y.next (.app x (.call ch st)) = some y')
    (hst : ∀ n k, st ≠ .read n ∧ st ≠ .credit k ∧ st ≠ .sendAdjust k) :
    (y'.chan x ch).reads = (y.chan x ch).reads := by
  obtain ⟨-, r, hr, heq⟩ := System.call_step hn
  have hm := Channel.Move.of_step hr
  rw [heq, Channel.sends]
  generalize r.1 = chn, r.2 = ms at hm
  cases hm with
  | readNone | read => exact absurd rfl (hst _ 0).1
  | credit => exact absurd rfl (hst 0 _).2.1
  | adjust | dropAdjust => exact absurd rfl (hst 0 _).2.2
  | _ => rfl

/-- A `Read` that comes back empty is in progress no more. -/
theorem reads_read {n : Nat} (hn : y.next (.app x (.call ch (.read n))) = some y')
    (h : (y.chan x ch).reads.length = 0) : (y'.chan x ch).reads.length =
      Place.readsAfter ((Op.Read ch n).after x y .idle (.call ch (.read n))) := by
  obtain ⟨-, r, hr, heq⟩ := System.call_step hn
  simp only [Channel.step] at hr
  split at hr
  · simp only [bind, Option.bind_eq_some_iff] at hr
    obtain ⟨chn, hread, hr⟩ := hr
    cases hr
    rw [heq, Channel.sends_nil]
    unfold Channel.Read at hread
    simp only [Op.after]
    split at hread
    · next b' hb =>
      cases hread
      rw [hb]
      exact h
    · next bs b' hne hb =>
      cases hread
      rw [hb]
      cases bs with
      | nil => exact absurd rfl hne
      | cons a bs =>
        simp only [List.length_append, h]
        rfl
    · next hb =>
      cases hread
      rw [hb]
      exact h
    · cases hread
  · cases hr

theorem reads_credit {k : Nat} (hn : y.next (.app x (.call ch (.credit k))) = some y') :
    (y'.chan x ch).reads.length = (y.chan x ch).reads.length := by
  obtain ⟨-, r, hr, heq⟩ := System.call_step hn
  simp only [Channel.step, Channel.adjustWindow, bind, Option.bind_eq_some_iff] at hr
  obtain ⟨chn, ⟨rc, hk, hc⟩, hr⟩ := hr
  cases hr
  cases rc with
  | credited n => cases hc
  | took n =>
    cases hc
    rw [heq]
    exact List.length_set

theorem reads_sendAdjust {k : Nat} (hn : y.next (.app x (.call ch (.sendAdjust k))) = some y') :
    (y'.chan x ch).reads.length + 1 = (y.chan x ch).reads.length := by
  obtain ⟨-, r, hr, heq⟩ := System.call_step hn
  simp only [Channel.step, Channel.sendAdjust, bind, Option.bind_eq_some_iff] at hr
  obtain ⟨rc, hk, hr⟩ := hr
  obtain ⟨hlt, -⟩ := List.getElem?_eq_some_iff.mp hk
  have hlen : ((y.chan x ch).reads.eraseIdx k).length + 1 = (y.chan x ch).reads.length := by
    rw [List.length_eraseIdx_of_lt hlt]
    omega
  cases rc with
  | took n => cases hr
  | credited n =>
    rw [heq]
    simp only [Channel.send] at hr
    split at hr
    · cases hr
      exact hlen
    · cases hr
      exact hlen

theorem reads_after {o : Op} {place : Place} (ho : On ch o) (hs : Stage [ch] place b o)
    (hb : ∃ st, b = .call ch st) (h : (y.chan x ch).reads.length = place.reads)
    (hn : y.next (.app x b) = some y') :
    (y'.chan x ch).reads.length = Place.readsAfter (o.after x y place b) := by
  obtain ⟨st, rfl⟩ := hb
  cases hs with
  | sendOpen | opened => exact absurd rfl ho.ne_open
  | write hown =>
    rw [reads_kept hn (by simp), h]
    simp only [Op.after]
    split <;> rfl
  | reserve j =>
    rw [reads_kept hn (by simp), h]
    simp only [Op.after]
    repeat' split
    all_goals rfl
  | sendData j ok =>
    rw [reads_kept hn (by simp), h]
    simp only [Op.after]
    split <;> rfl
  | read hown => exact reads_read hn h
  | credit bs j =>
    rw [reads_credit hn, h]
    rfl
  | sendAdjust bs j =>
    have hlen := reads_sendAdjust hn
    rw [h] at hlen
    exact Nat.succ.inj hlen
  | close hown =>
    rw [reads_kept hn (by simp), h]
    rfl

end Reads

/-! ## Where it is stuck -/

section Stalled

variable {fails : Bool} {ch : Nat} {p₀ : Go ρ} {g g' : Goroutine ρ} {es : List Done}
  {x : Side} {y y' : System} {b : Session.Act}

/-- A step of the goroutine keeps count of its reads. -/
theorem Books.reads_step (h : Books fails ch p₀ g (y.chan x ch) es)
    (hr : (y.chan x ch).reads.length = g.place.reads) (hs : g.Steps x y b g' y') :
    (y'.chan x ch).reads.length = g'.place.reads := by
  have hown := h.own
  have hl := h.ledger
  have hon := h.on.steps h.steps
  cases hs with
  | goesOn hp hst hn ha =>
    rw [hp] at hl hon
    rw [hown] at hst
    have hafter := reads_after hon.1 hst (hl.doing.call hon.1 hst) hr hn
    rwa [ha] at hafter
  | answered hp hst hn ha =>
    rw [hp] at hl hon
    rw [hown] at hst
    have hafter := reads_after hon.1 hst (hl.doing.call hon.1 hst) hr hn
    rwa [ha] at hafter

/-- What the goroutine waits for, with no step of its own left: bytes to read, or room to write. -/
inductive Stalled (ch : Nat) (chn : Channel) (g : Goroutine ρ) : Prop
  | reading {n : Nat} {k : Except SessionError (List UInt8) → Go ρ} (hp : g.prog = .op (.Read ch n) k)
      (hplace : g.place = .idle) (hn : n ≠ 0) (hnone : chn.pending.content = [])
      (hopen : chn.pending.closed = false)
  | writing {data : List UInt8} {k : Option SessionError → Go ρ} {w : WriteCall}
      (hp : g.prog = .op (.Write ch data) k) (hplace : g.place = .writing) (hw : chn.writes = [w])
      (hg : w.granted = none) (hd : w.data ≠ []) (hwin : chn.remoteWin.win = 0)
      (hopen : chn.remoteWin.closed = false)

/-- A `Write` waits only where nothing is left of the window. -/
theorem reserve_waits {chn : Channel} {w : WriteCall} (hw : chn.writes = [w]) (hg : w.granted = none)
    (hr : chn.reserve 0 = none) :
    w.data ≠ [] ∧ chn.remoteWin.win = 0 ∧ chn.remoteWin.closed = false := by
  have hd : w.data ≠ [] := by
    intro hd
    simp [Channel.reserve, hw, hg, hd] at hr
  refine ⟨hd, ?_⟩
  by_contra hgo
  cases hcl : chn.remoteWin.closed with
  | false =>
    rw [hcl] at hgo
    have hwin : chn.remoteWin.win = 0 := by
      simpa [Channel.reserve, hw, hg, hd, Window.reserve, hcl] using hr
    exact hgo ⟨hwin, rfl⟩
  | true => simp [Channel.reserve, hw, hg, hd, Window.reserve, hcl] at hr

theorem Goroutine.Returned.next (h : g.Returned) (x : Side) (y : System) (b : Session.Act) :
    g.next x y b = none := by
  obtain ⟨r, hr⟩ := Option.isSome_iff_exists.mp h
  rw [Goroutine.next, Program.result_eq_some.mp hr]

theorem Goroutine.Steps.not_returned (hs : g.Steps x y b g' y') : ¬ g.Returned := by
  intro h
  obtain ⟨r, hr⟩ := Option.isSome_iff_exists.mp h
  rw [Program.result_eq_some] at hr
  cases hs with
  | goesOn hp | answered hp =>
    rw [hr] at hp
    cases hp

/-- What the operation at hand would do next the session does not allow. -/
theorem stuck_next (hstuck : ∀ b, g.next x y b = none) {o : Op} {k : o.Answer → Go ρ}
    (hp : g.prog = .op o k) (hd : o.does g.own g.place b = true) : y.next (.app x b) = none := by
  cases hn : y.next (.app x b) with
  | none => rfl
  | some y' =>
    have hnone := hstuck b
    unfold Goroutine.next at hnone
    rw [hp] at hnone
    simp only [hd, if_true, hn] at hnone
    split at hnone <;> cases hnone

variable (hf : (y.sess x).fault = none) (conn : (y.sess x).connClosed = false)
  (hstuck : ∀ b, g.next x y b = none)

include hf conn hstuck

/-- Where that is a step of a call, its channel does not. -/
theorem stuck_call (st : Channel.Step) {o : Op} {k : o.Answer → Go ρ} (hp : g.prog = .op o k)
    (hd : o.does g.own g.place (.call ch st) = true) (hc : ch < (y.sess x).fresh)
    (hr : System.reliable (y.sess x) (.call ch st) = true) : (y.chan x ch).step st = none := by
  cases hs : (y.chan x ch).step st with
  | none => rfl
  | some r =>
    obtain ⟨y', hn⟩ := System.call_next hc hf conn hr hs
    rw [stuck_next hstuck hp hd] at hn
    cases hn

theorem stuck_read {n : Nat} {k : Except SessionError (List UInt8) → Go ρ} (hown : g.own = [ch])
    (hp : g.prog = .op (.Read ch n) k) (hl : Ledger ch es (.op (.Read ch n) k) g.place (y.chan x ch))
    (hc : ch < (y.sess x).fresh) (held : (y.chan x ch).held = true)
    (hr : (y.chan x ch).reads.length = g.place.reads) : Stalled ch (y.chan x ch) g := by
  have hdoing := hl.doing
  cases hplace : g.place with
  | opening c | writing =>
    rw [hplace] at hdoing
    cases hdoing
  | idle =>
    have hnone := stuck_call hf conn hstuck (.read n) hp (by simp [Op.does, hplace, hown]) hc rfl
    simp only [Channel.step, held, if_true, Channel.Read] at hnone
    have hwait : (y.chan x ch).pending.Read n = .wait := by
      cases hb : (y.chan x ch).pending.Read n with
      | wait => rfl
      | eof => simp [hb] at hnone
      | bytes bs b' => cases bs <;> simp [hb] at hnone
    have hn : n ≠ 0 := by
      rintro rfl
      rw [Buffer.Read, if_pos rfl] at hwait
      cases hwait
    have hnil : (y.chan x ch).pending.content = [] := by
      by_contra hne
      obtain ⟨b', hb, -⟩ := Buffer.Read_pos (Nat.pos_of_ne_zero hn) hne
      rw [hwait] at hb
      cases hb
    refine .reading hp hplace hn hnil ?_
    rw [Buffer.Read_empty (Nat.pos_of_ne_zero hn) hnil] at hwait
    cases hcl : (y.chan x ch).pending.closed with
    | false => rfl
    | true =>
      rw [hcl] at hwait
      cases hwait
  | reading bs =>
    -- the one `Read` in progress can go on
    rw [hplace] at hr
    obtain ⟨rc, hrc⟩ := List.length_eq_one_iff.mp hr
    cases rc with
    | took m =>
      have hnone := stuck_call hf conn hstuck (.credit 0) hp (by simp [Op.does, hplace]) hc rfl
      simp [Channel.step, Channel.adjustWindow, hrc] at hnone
    | credited m =>
      have hnone := stuck_call hf conn hstuck (.sendAdjust 0) hp (by simp [Op.does, hplace]) hc rfl
      simp [Channel.step, Channel.sendAdjust, hrc] at hnone

theorem stuck_write {data : List UInt8} {k : Option SessionError → Go ρ} (hown : g.own = [ch])
    (hp : g.prog = .op (.Write ch data) k)
    (hl : Ledger ch es (.op (.Write ch data) k) g.place (y.chan x ch))
    (hc : ch < (y.sess x).fresh) (held : (y.chan x ch).held = true) : Stalled ch (y.chan x ch) g := by
  have hdoing := hl.doing
  cases hplace : g.place with
  | opening c | reading bs =>
    rw [hplace] at hdoing
    cases hdoing
  | idle =>
    have hnone := stuck_call hf conn hstuck (.write data) hp (by simp [Op.does, hplace, hown]) hc rfl
    simp [Channel.step, held] at hnone
  | writing =>
    rw [hplace] at hdoing
    obtain ⟨-, w, hw⟩ := hdoing.writes_writing
    have hg : w.granted = none := by
      cases hg : w.granted with
      | none => rfl
      | some space =>
        have hnone := stuck_call hf conn hstuck (.sendData 0 true) hp
          (by simp [Op.does, hplace]) hc rfl
        simp [Channel.step, Channel.sendData, hw, hg] at hnone
    have hnone := stuck_call hf conn hstuck (.reserve 0) hp (by simp [Op.does, hplace]) hc rfl
    have hres : (y.chan x ch).reserve 0 = none := by
      cases hres : (y.chan x ch).reserve 0 with
      | none => rfl
      | some r => simp [Channel.step, hres] at hnone
    obtain ⟨hd, hwin, hopen⟩ := reserve_waits hw hg hres
    exact .writing hp hplace hw hg hd hwin hopen

/-- With no step left the goroutine has returned, or it waits in a `Read` or a `Write`. -/
theorem Books.stalled (h : Books fails ch p₀ g (y.chan x ch) es) (hc : ch < (y.sess x).fresh)
    (held : (y.chan x ch).held = true) (hr : (y.chan x ch).reads.length = g.place.reads) :
    g.Returned ∨ Stalled ch (y.chan x ch) g := by
  have hl := h.ledger
  have hon := h.on.steps h.steps
  cases hp : g.prog with
  | ret r =>
    left
    rw [Goroutine.Returned, hp]
    rfl
  | op o k =>
    right
    rw [hp] at hl hon
    have hwork := hon.1
    cases o with
    | Open | handOut => exact hwork.elim
    | Read c n =>
      obtain rfl : c = ch := hwork
      exact stuck_read hf conn hstuck h.own hp hl hc held hr
    | Write c data =>
      obtain rfl : c = ch := hwork
      exact stuck_write hf conn hstuck h.own hp hl hc held
    | Close c =>
      obtain rfl : c = ch := hwork
      have hidle : g.place = .idle := by
        have hdoing := hl.doing
        generalize g.place = place, (y.chan x c).writes = ws at hdoing
        cases hdoing
        rfl
      have hnone := stuck_call hf conn hstuck .close hp (by simp [Op.does, hidle, h.own]) hc rfl
      simp [Channel.step, held] at hnone

end Stalled

end Qtalk.Rpc.Peer
