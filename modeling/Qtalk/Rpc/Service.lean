import Qtalk.Rpc.Ledger

/-!
# Calls of a service

A caller and a server with the same codec, and a responder whose handlers decode their arguments
and return what they make of them. `Progress` says where a call stands, and a step of its goroutine
keeps it (`Progress.step`).
-/

namespace Qtalk.Rpc.Peer
open Qtalk.Codec Qtalk.Lib Qtalk.Mux

/-- What a handler makes of a call and its arguments. -/
abbrev Procedure (α V E : Type) := Rpc.Call α → Except (CallError α E) (Option V) → Result α V

/-- What a `Call` was asked for. -/
structure Asked (α V : Type) where
  path : List α
  args : Option V
  reply : Bool

/-- The two sides, and what each `Call` was asked for. -/
structure Service (α V E : Type) where
  world : World α V E
  asked : List (Asked α V)

namespace Service

variable {α V E : Type}

def start : Service α V E := ⟨World.start, []⟩

inductive Act (ps : List (List α × Procedure α V E)) where
  | call (a : Asked α V)
  /-- `Server.Respond` accepts a channel; the handler map is searched in any order -/
  | accept (order : List (List α × Procedure α V E)) (h : order.Perm ps)
  | goesOn (b : World.Act α V E)

/-- The responder of a server with these procedures. -/
def handlers (c : Codecs α V E) (order : List (List α × Procedure α V E)) : List (List α × Handler α) :=
  order.map fun p => (p.1, answering c p.2)

variable [DecidableEq α] [Text α] (c : Codecs α V E) (ps : List (List α × Procedure α V E))

def next (s : Service α V E) : Act ps → Option (Service α V E)
  | .call a => do return ⟨← s.world.next (.call c a.path a.args a.reply), s.asked ++ [a]⟩
  | .accept order _ => do return { s with world := ← s.world.next (.accept c (handlers c order)) }
  | .goesOn (.call ..) | .goesOn (.accept ..) => none
  | .goesOn b => do return { s with world := ← s.world.next b }

variable {ps}

/-- Nobody lets data follow its `CloseMessage`, and each `Read` of a call gives as many bytes as it
was asked for; that of a `Call` may come to the end. -/
def Orderly (s : Service α V E) : Act ps → Prop
  | .goesOn (.caller _ b) =>
    (s.world.sys.sess .left).TidyClose b ∧ full true s.world.sys .left b = true
  | .goesOn (.responder _ b) =>
    (s.world.sys.sess .right).TidyClose b ∧ full false s.world.sys .right b = true
  | .goesOn (.use x ch b) => (s.world.sys.sess x).TidyClose (.call ch b)
  | .goesOn (.loop x ok) => (s.world.sys.sess x).TidyClose (.loop ok)
  | _ => True

instance (s : Service α V E) : ∀ a : Act ps, Decidable (Orderly s a)
  | .goesOn (.caller _ b) => inferInstanceAs (Decidable
      ((s.world.sys.sess .left).TidyClose b ∧ full true s.world.sys .left b = true))
  | .goesOn (.responder _ b) => inferInstanceAs (Decidable
      ((s.world.sys.sess .right).TidyClose b ∧ full false s.world.sys .right b = true))
  | .goesOn (.use x ch b) => inferInstanceAs (Decidable ((s.world.sys.sess x).TidyClose (.call ch b)))
  | .goesOn (.loop x ok) => inferInstanceAs (Decidable ((s.world.sys.sess x).TidyClose (.loop ok)))
  | .call _ | .accept _ _ | .goesOn (.call ..) | .goesOn (.accept ..) | .goesOn .acceptEOF
  | .goesOn (.handOut _) | .goesOn (.deliver _) => .isTrue trivial

end Service

/-! ## The programs -/

section Programs

variable {α V E ρ : Type} {c : Codecs α V E} {ch : Nat}

theorem Encode_on {W : Type} (f : Format W E) (v : W) :
    (Peer.Encode f ch v : Go (Option (CallError α E))).Only (On ch) := by
  rw [Peer.Encode]
  cases f.encode v with
  | error e => trivial
  | ok b => exact ⟨rfl, fun _ => trivial⟩

theorem Decode_on {W : Type} (dec : List UInt8 → Except E W) :
    (Peer.Decode dec ch : Go (Except (CallError α E) W)).Only (On ch) := by
  refine ⟨rfl, fun r => ?_⟩
  cases r with
  | error e => trivial
  | ok bs =>
    refine ⟨rfl, fun r => ?_⟩
    cases r with
    | error e => trivial
    | ok bs => trivial

theorem Close_on {f : Option SessionError → Go ρ} (hf : ∀ r, (f r).Only (On ch)) :
    (Close ch >>= f).Only (On ch) :=
  ⟨rfl, hf⟩

theorem Return_on (v : Result α V) : ((responder.Return c ch v).run {}).Only (On ch) := by
  rw [Return_run]
  refine (Encode_on _ _).bind fun e => ?_
  cases e with
  | some e => trivial
  | none =>
    refine (Encode_on _ _).bind fun e => ?_
    cases e with
    | some e => trivial
    | none => exact Close_on fun _ => trivial

variable [DecidableEq α] [Text α]

theorem Respond_on (order : List (List α × Procedure α V E)) :
    (Respond c (Service.handlers c order) ch).Only (On ch) := by
  refine Program.Only.bind ?_ fun _ => Close_on fun _ => trivial
  refine (Decode_on _).bind fun call => ?_
  cases call with
  | error e => trivial
  | ok call =>
    dsimp only
    rw [Service.handlers, Respond_map]
    cases Rpc.Respond order call with
    | rejected e => trivial
    | missing text => exact (Return_on _).bind fun _ => trivial
    | answered f call =>
      refine Program.Only.bind ?_ fun _ => trivial
      show ((answering c f call ch).run {}).Only (On ch)
      rw [answering_run]
      exact (Decode_on _).bind fun args => (Return_on _).bind fun _ => trivial

variable (path : List α) (args : Option V) (reply : Bool)

omit [DecidableEq α] in
theorem response_on (header : ResponseHeader α) : (caller.response c ch header reply).Only (On ch) := by
  rw [caller.response]
  cases header.Error with
  | some e => trivial
  | none =>
    cases reply with
    | true => exact (Decode_on _).bind fun x => by cases x <;> trivial
    | false => exact (Decode_on _).bind fun x => by cases x <;> trivial

omit [DecidableEq α] in
theorem exchange_on : (caller.exchange c path args reply ch).Only (On ch) := by
  refine (Encode_on _ _).bind fun e => ?_
  cases e with
  | some e => exact Close_on fun _ => trivial
  | none =>
    refine (Encode_on _ _).bind fun e => ?_
    cases e with
    | some e => exact Close_on fun _ => trivial
    | none =>
      refine (Decode_on _).bind fun x => ?_
      cases x with
      | error e => exact Close_on fun _ => trivial
      | ok header =>
        dsimp only
        split
        · exact response_on reply header
        · exact (response_on reply header).bind fun _ => Close_on fun _ => trivial

omit [DecidableEq α] in
theorem response_channel (header : ResponseHeader α) :
    (caller.response c ch header reply).Passes (fun _ => False) fun r =>
      ∀ resp, r.1 = some resp → resp.Channel = ch := by
  rw [caller.response]
  cases header.Error with
  | some e =>
    intro resp hr
    cases hr
    rfl
  | none =>
    cases reply with
    | true =>
      refine (Program.passes_any _).bind fun x _ => ?_
      cases x <;>
      · intro resp hr
        cases hr
        rfl
    | false =>
      refine (Program.passes_any _).bind fun x _ => ?_
      cases x <;>
      · intro resp hr
        cases hr
        rfl

omit [DecidableEq α] in
/-- The response of a call names the channel it was made on. -/
theorem exchange_channel : (caller.exchange c path args reply ch).Passes (fun _ => False) fun r =>
    ∀ resp, r.1 = some resp → resp.Channel = ch := by
  have none_channel : ∀ e : CallError α E, Program.Passes (fun _ => False)
      (fun r : Reply α V E => ∀ resp, r.1 = some resp → resp.Channel = ch)
      (Close ch >>= fun _ => pure (none, some e)) := by
    intro e
    exact .inr fun _ resp hr => by cases hr
  refine (Program.passes_any _).bind fun e _ => ?_
  cases e with
  | some e => exact none_channel e
  | none =>
    refine (Program.passes_any _).bind fun e _ => ?_
    cases e with
    | some e => exact none_channel e
    | none =>
      refine (Program.passes_any _).bind fun x _ => ?_
      cases x with
      | error e => exact none_channel e
      | ok header =>
        dsimp only
        split
        · exact response_channel reply header
        · exact (response_channel reply header).bind fun r hr => .inr fun _ => hr

end Programs

/-! ## Where a call stands -/

variable {α V E : Type}

section Progress

variable [Text α] (c : Codecs α V E)

/-- Where a call stands. -/
inductive Progress (a : Asked α V) (y : System) (g : Goroutine (Reply α V E)) : Prop
  | called (hown : g.own = []) (hp : g.prog = caller.Call c a.path a.args a.reply)
      (hplace : g.place = .idle)
  | opening {ch : Nat} (hown : g.own = [ch]) (hp : g.prog = caller.Call c a.path a.args a.reply)
      (hplace : g.place = .opening ch) (hu : Unused (y.chan .left ch))
  | exchanging {ch : Nat} {es : List Done}
      (hb : Books true ch (caller.exchange c a.path a.args a.reply ch) g (y.chan .left ch) es)
  | refused {ch : Nat} {e : SessionError} (hown : g.own = [ch])
      (hp : g.prog = .ret (none, some (.session e))) (hu : Unused (y.chan .left ch))

variable {c} {a : Asked α V} {y y' : System} {g g' : Goroutine (Reply α V E)} {b : Session.Act}

theorem Progress.keep (h : Progress c a y g) (hs : ∀ ch ∈ g.own, Spares y y' .left ch) :
    Progress c a y' g := by
  cases h with
  | called hown hp hplace => exact .called hown hp hplace
  | opening hown hp hplace hu =>
    exact .opening hown hp hplace (hu.keep (hs _ (hown ▸ List.mem_singleton_self _)))
  | exchanging hb => exact .exchanging (hb.spared (hs _ (hb.own ▸ List.mem_singleton_self _)))
  | refused hown hp hu =>
    exact .refused hown hp (hu.keep (hs _ (hown ▸ List.mem_singleton_self _)))

/-- A step of a call is one on its channel, or it registers one. -/
theorem Progress.step (h : Progress c a y g) (hi : (y.sess .left).Inv)
    (hknown : ∀ ch ∈ g.own, ch < (y.sess .left).fresh) (hs : g.Steps .left y b g' y')
    (conn : (y.sess .left).connClosed = false) (hf : full true y .left b = true) :
    Progress c a y' g' ∧ (b = .register ∨ ∃ ch ∈ g.own, ∃ st, b = .call ch st) := by
  cases h with
  | called hown hp hplace =>
    cases hs with
    | goesOn hp' hst hn ha =>
      rw [hp] at hp'
      cases hp'
      rw [hplace] at hst ha
      cases hst
      cases ha
      obtain ⟨-, id, hid⟩ := System.register_step hn
      refine ⟨.opening ?_ rfl rfl ?_, .inl rfl⟩
      · rw [hown]
        rfl
      · rw [hid]
        exact .outbound id
    | answered hp' hst hn ha =>
      rw [hp] at hp'
      cases hp'
      rw [hplace] at hst ha
      cases hst
      cases ha
  | @opening ch hown hp hplace hu =>
    have hin : ch ∈ g.own := hown ▸ List.mem_singleton_self _
    have hkeep : ∀ st, ¬ Moving st → y.next (.app .left (.call ch st)) = some y' →
        Unused (y'.chan .left ch) := by
      intro st hst hn
      refine hu.keep (spares (.of_next hn) hi (hknown ch hin) fun st' heq => ?_)
      cases heq
      exact hst
    cases hs with
    | goesOn hp' hst hn ha =>
      rw [hp] at hp'
      cases hp'
      rw [hplace] at hst ha
      cases hst with
      | sendOpen _ ok =>
        cases ok with
        | true =>
          cases ha
          refine ⟨.opening ?_ rfl rfl (hkeep _ id hn), .inr ⟨ch, hin, _, rfl⟩⟩
          rw [hown]
          rfl
        | false => cases ha
      | opened => cases ha
    | @answered _ _ _ r hp' hst hn ha =>
      rw [hp] at hp'
      cases hp'
      rw [hplace] at hst ha
      have own' : ∀ st, g.own ++ registered (y.sess .left) (.call ch st) = [ch] := by
        intro st
        rw [hown]
        rfl
      cases hst with
      | sendOpen _ ok =>
        -- the message is lost on a closed connection only
        cases ok with
        | true => cases ha
        | false =>
          cases System.Moves.of_next hn with
          | app hr => simp [System.reliable, conn] at hr
      | opened =>
        refine ⟨?_, .inr ⟨ch, hin, _, rfl⟩⟩
        obtain rfl : opened ch (y.chan .left ch) = r := Sum.inr.inj ha
        unfold opened
        split
        · refine .exchanging ⟨own' _, exchange_on _ _ _, .nil _, fun _ _ hm => (by cases hm), ?_⟩
          exact (hkeep _ id hn).ledger _
        · exact .refused (own' _) rfl (hkeep _ id hn)
        · exact .refused (own' _) rfl (hkeep _ id hn)
        · exact .refused (own' _) rfl (hkeep _ id hn)
  | exchanging hb =>
    obtain ⟨⟨st, rfl⟩, es', hb'⟩ := hb.step hs conn hf
    exact ⟨.exchanging hb', .inr ⟨_, hb.own ▸ List.mem_singleton_self _, st, rfl⟩⟩
  | refused hown hp =>
    cases hs with
    | goesOn hp' | answered hp' =>
      rw [hp] at hp'
      cases hp'

end Progress

end Qtalk.Rpc.Peer
