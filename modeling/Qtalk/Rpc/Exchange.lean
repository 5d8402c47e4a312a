import Qtalk.Rpc.Peers

/-!
# One call from end to end

`caller.Call` behind `Open` on one end of a channel and `Respond` on the other, each with the
operations it has done and what they came back with. The channel is an ordered stream of bytes in
either direction, of which a reader sees a part from the front. Where each `Read` gives as many
bytes as it was asked for, the call returns what the handler of its path makes of its arguments, or
an operation has failed (`call_answered`).
-/

namespace Qtalk.Rpc.Peer
open Qtalk.Codec Qtalk.Lib Qtalk.Mux Program

variable {α V E ρ : Type}

/-- An operation of a goroutine with its answer. -/
abbrev Done := Event Op Op.Answer

/-- The bytes given to `Write` on the channel. -/
def Done.out (ch : Nat) : Done → List UInt8
  | ⟨.Write c data, _⟩ => if c = ch then data else []
  | _ => []

/-- The bytes that a `Read` on the channel came back with. -/
def Done.inp (ch : Nat) : Done → List UInt8
  | ⟨.Read c _, .ok bs⟩ => if c = ch then bs else []
  | _ => []

def written (ch : Nat) (es : List Done) : List UInt8 := es.flatMap (Done.out ch)

def received (ch : Nat) (es : List Done) : List UInt8 := es.flatMap (Done.inp ch)

/-- Each `Read` on the channel gives as many bytes as it was asked for, or it fails where that may
be. -/
def FullReads (fails : Bool) (ch : Nat) (es : List Done) : Prop :=
  ∀ n a, ⟨.Read ch n, a⟩ ∈ es → (fails = true ∧ ∃ e, a = .error e) ∨ ∃ bs, a = .ok bs ∧ bs.length = n

/-- With `inp` coming in on the channel the program writes nothing but `out` to it, as far as it
gets, and it returns values with `Q` only. -/
def Speaks (fails : Bool) (ch : Nat) (inp out : List UInt8) (Q : ρ → Prop) (p : Go ρ) : Prop :=
  ∀ es q, Steps p es q → FullReads fails ch es → received ch es <+: inp →
    written ch es <+: out ∧ ∀ r, q = .ret r → Q r

/-- Encodings in a row, each in a frame, up to the first that fails. -/
def frames : List (Except E (List UInt8)) → List UInt8
  | [] => []
  | .error _ :: _ => []
  | .ok b :: rest => frame b ++ frames rest

/-! ## Rules -/

variable {fails : Bool} {ch : Nat} {inp out : List UInt8} {Q : ρ → Prop}

theorem FullReads.tail {e : Done} {es : List Done} (h : FullReads fails ch (e :: es)) : FullReads fails ch es :=
  fun n a hm => h n a (List.mem_cons_of_mem _ hm)

/-- A stream starts with at most one frame. -/
theorem frame_append_inj {b b' s s' : List UInt8} (hb : b.length < 2 ^ 32) (hb' : b'.length < 2 ^ 32)
    (h : frame b ++ s = frame b' ++ s') : b = b' ∧ s = s' := by
  have hword := congrArg (fun l => (beWord l).toNat) h
  simp only [frame, List.append_assoc, beWord_beBytes, UInt32.toNat_ofNat'] at hword
  rw [Nat.mod_eq_of_lt hb, Nat.mod_eq_of_lt hb'] at hword
  rw [frame, frame, List.append_assoc, List.append_assoc, hword] at h
  exact List.append_inj (List.append_cancel_left h) hword

namespace Speaks

theorem ret {a : ρ} (h : Q a) : Speaks fails ch inp out Q (.ret a) := by
  intro es q hs _ _
  obtain ⟨rfl, rfl⟩ := hs.ret_cases
  refine ⟨List.nil_prefix, fun r hr => ?_⟩
  cases hr
  exact h

theorem write {data : List UInt8} {k : Option SessionError → Go ρ}
    (h : ∀ r, Speaks fails ch inp out Q (k r)) : Speaks fails ch inp (data ++ out) Q (.op (.Write ch data) k) := by
  intro es q hs full hr
  rcases hs.op_cases with ⟨rfl, rfl⟩ | ⟨r, es', rfl, hs'⟩
  · exact ⟨List.nil_prefix, fun r hr => by cases hr⟩
  · obtain ⟨hw, hq⟩ := h r es' q hs' full.tail hr
    refine ⟨?_, hq⟩
    rw [written, List.flatMap_cons, ← written, Done.out, if_pos rfl]
    exact (List.prefix_append_right_inj data).mpr hw

/-- A `Read` gives the next bytes of what comes in, or fails. -/
theorem read {n : Nat} {k : Except SessionError (List UInt8) → Go ρ}
    (failed : fails = true → ∀ e, Speaks fails ch inp out Q (k (.error e)))
    (ok : ∀ bs rest, inp = bs ++ rest → bs.length = n → Speaks fails ch rest out Q (k (.ok bs))) :
    Speaks fails ch inp out Q (.op (.Read ch n) k) := by
  intro es q hs full hr
  rcases hs.op_cases with ⟨rfl, rfl⟩ | ⟨r, es', rfl, hs'⟩
  · exact ⟨List.nil_prefix, fun r hr => by cases hr⟩
  · rcases full n r List.mem_cons_self with ⟨hf, e, rfl⟩ | ⟨bs, rfl, hlen⟩
    · exact failed hf e es' q hs' full.tail hr
    · rw [received, List.flatMap_cons, ← received, Done.inp, if_pos rfl] at hr
      obtain ⟨rest, hrest⟩ := (List.prefix_append bs _).trans hr
      rw [← hrest, List.prefix_append_right_inj] at hr
      exact ok bs rest hrest.symm hlen es' q hs' full.tail hr

theorem close {k : Option SessionError → Go ρ} (h : ∀ r, Speaks fails ch inp out Q (k r)) :
    Speaks fails ch inp out Q (.op (.Close ch) k) := by
  intro es q hs full hr
  rcases hs.op_cases with ⟨rfl, rfl⟩ | ⟨r, es', rfl, hs'⟩
  · exact ⟨List.nil_prefix, fun r hr => by cases hr⟩
  · exact h r es' q hs' full.tail hr

/-- A part behind which the channel is neither read nor written. -/
theorem bind {σ : Type} {P : σ → Prop} {p : Go σ} {f : σ → Go ρ} (h : Speaks fails ch inp out P p)
    (hf : ∀ a inp, P a → Speaks fails ch inp [] Q (f a)) : Speaks fails ch inp out Q (p >>= f) := by
  intro es q hs full hr
  rcases hs.bind_cases with ⟨p', hp, rfl⟩ | ⟨a, es₁, es₂, rfl, hp, hq⟩
  · obtain ⟨hw, hret⟩ := h es p' hp full hr
    refine ⟨hw, fun r hr => ?_⟩
    cases p' with
    | ret a =>
      exact (hf a [] (hret a rfl) [] _ (.nil _) (fun _ _ hm => by cases hm) List.nil_prefix).2 r hr
    | op o k => cases hr
  · have full₁ : FullReads fails ch es₁ := fun n a hm => full n a (List.mem_append_left _ hm)
    have full₂ : FullReads fails ch es₂ := fun n a hm => full n a (List.mem_append_right _ hm)
    rw [received, List.flatMap_append] at hr
    obtain ⟨hw, ha⟩ := h es₁ _ hp full₁ ((List.prefix_append _ _).trans hr)
    obtain ⟨hw', hret⟩ := hf a _ (ha a rfl) es₂ q hq full₂ (List.prefix_refl _)
    refine ⟨?_, hret⟩
    rw [written, List.flatMap_append, ← written, ← written, List.prefix_nil.mp hw', List.append_nil]
    exact hw

variable {V' : Type} {α : Type}

/-- `Encode` writes the frame of its value, or nothing. -/
theorem Encode {f : Format V E} {v : V} {g : Option (CallError α E) → Go ρ}
    {rest : List (Except E (List UInt8))}
    (failed : ∀ e, f.encode v = .error e → Speaks fails ch inp [] Q (g (some (.codec e))))
    (ok : ∀ b, f.encode v = .ok b → ∀ r : Option SessionError,
      Speaks fails ch inp (frames rest) Q (g (r.map .session))) :
    Speaks fails ch inp (frames (f.encode v :: rest)) Q (Peer.Encode f ch v >>= g) := by
  rw [Peer.Encode]
  cases hv : f.encode v with
  | error e => exact failed e hv
  | ok b => exact Speaks.write (ok b hv)

/-- `Decode` takes one frame off what comes in, or fails. -/
theorem Decode_more {dec : List UInt8 → Except E V} {g : Except (CallError α E) V → Go ρ}
    {x : Except E (List UInt8)} {rest : List (Except E (List UInt8))} {more : List UInt8}
    (hx : ∀ b, x = .ok b → b.length < 2 ^ 32) (hmore : ∀ e, x = .error e → more = [])
    (failed : fails = true → ∀ inp e, Speaks fails ch inp out Q (g (.error (.session e))))
    (ok : ∀ b, x = .ok b → Speaks fails ch (frames rest ++ more) out Q (g ((dec b).mapError .codec))) :
    Speaks fails ch (frames (x :: rest) ++ more) out Q (Peer.Decode dec ch >>= g) := by
  refine Speaks.read (fun hf => failed hf _) fun p inp₁ hp hlen => ?_
  refine Speaks.read (fun hf => failed hf _) fun bs inp₂ hbs hlen' => ?_
  have hfill : fillBuffer 4 p = p := hlen ▸ fillBuffer_full p
  rw [hfill] at hlen'
  cases x with
  | error e =>
    rw [frames, hmore e rfl] at hp
    rw [(List.append_eq_nil_iff.mp hp.symm).1] at hlen
    cases hlen
  | ok b =>
    have hlt : bs.length < 2 ^ 32 := hlen' ▸ (beWord p).toNat_lt
    -- the four bytes are the prefix of a frame, that of the bytes behind them
    have hframe : frame b ++ (frames rest ++ more) = frame bs ++ inp₂ := by
      rw [← List.append_assoc, ← frames, hp, hbs, frame, hlen', UInt32.ofNat_toNat, beBytes_beWord hlen,
        List.append_assoc]
    obtain ⟨rfl, rfl⟩ := frame_append_inj (hx b rfl) hlt hframe
    show Speaks fails ch _ out Q (g ((dec (fillBuffer _ b)).mapError .codec))
    rw [hfill, ← hlen', fillBuffer_full]
    exact ok b rfl

theorem Decode {dec : List UInt8 → Except E V} {g : Except (CallError α E) V → Go ρ}
    {x : Except E (List UInt8)} {rest : List (Except E (List UInt8))}
    (hx : ∀ b, x = .ok b → b.length < 2 ^ 32)
    (failed : fails = true → ∀ inp e, Speaks fails ch inp out Q (g (.error (.session e))))
    (ok : ∀ b, x = .ok b → Speaks fails ch (frames rest) out Q (g ((dec b).mapError .codec))) :
    Speaks fails ch (frames (x :: rest)) out Q (Peer.Decode dec ch >>= g) := by
  rw [← List.append_nil (frames _)]
  refine Decode_more hx (fun _ _ => rfl) failed fun b hb => ?_
  rw [List.append_nil]
  exact ok b hb

/-- Whatever comes in, `Decode` writes nothing. -/
theorem Decode_any {dec : List UInt8 → Except E V} {g : Except (CallError α E) V → Go ρ}
    (h : ∀ inp x, Speaks fails ch inp out Q (g x)) : Speaks fails ch inp out Q (Peer.Decode dec ch >>= g) :=
  Speaks.read (fun _ _ => h _ _) fun _ _ _ _ => Speaks.read (fun _ _ => h _ _) fun _ _ _ _ => h _ _

/-- With nothing coming in `Decode` fails. -/
theorem Decode_nil {dec : List UInt8 → Except E V} {g : Except (CallError α E) V → Go ρ}
    (failed : fails = true → ∀ inp e, Speaks fails ch inp out Q (g (.error (.session e)))) :
    Speaks fails ch [] out Q (Peer.Decode dec ch >>= g) := by
  refine Speaks.read (fun hf => failed hf _) fun p inp₁ hp hlen => ?_
  rw [(List.append_eq_nil_iff.mp hp.symm).1] at hlen
  cases hlen

end Speaks

/-! ## The two programs -/

variable [DecidableEq α] [Text α]

/-- The call as it is sent. -/
def callOf (path : List α) : Rpc.Call α := { Destination := path, ObjectPath := [], Method := [] }

/-- What a handler does that decodes its arguments and returns what `f` makes of them. -/
def answering (c : Codecs α V E) (f : Rpc.Call α → Except (CallError α E) (Option V) → Result α V) :
    Handler α := fun call ch => do
  let args : Except (CallError α E) (Option V) ← Peer.Decode c.value.decode ch
  let _ ← responder.Return c ch (f call args)

/-- The answer to a call for a path, unless `Respond` gives none. -/
def answerOf (order : List (List α × (Rpc.Call α → Except (CallError α E) (Option V) → Result α V)))
    (path : List α) (args : Option V) : Option (Result α V) :=
  match Rpc.Respond order (callOf path) with
  | .rejected _ => none
  | .missing text => some (.error text)
  | .answered f call => some (f call (.ok args))

/-- The header and the value in which an answer is sent. -/
def headerOf : Result α V → ResponseHeader α
  | .error e => { Error := some e }
  | .ok _ => {}

def valueOf : Result α V → Option V
  | .error _ => none
  | .ok v => v

def request (c : Codecs α V E) (path : List α) (args : Option V) : List (Except E (List UInt8)) :=
  [c.call.encode (callOf path), c.value.encode args]

def response (c : Codecs α V E) (a : Option (Result α V)) : List (Except E (List UInt8)) :=
  a.toList.flatMap fun a => [c.header.encode (headerOf a), c.value.encode (valueOf a)]

/-- The call returned an answer; without a place for the reply it looks at no value. -/
def Answered (ch : Nat) (reply : Bool) (r : Reply α V E) : Result α V → Prop
  | .error text =>
    r = (some { header := { Error := some text }, Reply := none, Channel := ch },
      some (.remote (Text.literal "remote: " ++ text)))
  | .ok v =>
    r.1 = some { header := {}, Reply := if reply then v else none, Channel := ch } ∧
      (reply = true → r.2 = none)

/-- What `Call` returns where `a` is the answer: it could not encode its request, an operation
failed, or it has the answer. -/
def CameTo (c : Codecs α V E) (path : List α) (args : Option V) (reply : Bool) (ch : Nat)
    (a : Option (Result α V)) (r : Reply α V E) : Prop :=
  (∃ e, r = (none, some (.codec e)) ∧ .error e ∈ request c path args) ∨
    (∃ e, r.2 = some (.session e)) ∨ ∃ x ∈ a, Answered ch reply r x

/-- Values come back as they were encoded, and the encodings fit a frame. -/
def Faithful (f : Format V E) : Prop :=
  ∀ v b, f.encode v = .ok b → b.length < 2 ^ 32 ∧ f.decode b = .ok v

variable {c : Codecs α V E} {path : List α} {args : Option V} {reply : Bool}

omit [DecidableEq α] [Text α] in
theorem Return_run (v : Result α V) : (responder.Return c ch v).run {} =
    Peer.Encode c.header ch (headerOf v) >>= fun e =>
      e.elim
        (Peer.Encode c.value ch (valueOf v) >>= fun e =>
          e.elim (Close ch >>= fun r => pure (r.map .session, headerOf v)) fun e => pure (some e, headerOf v))
        fun e => pure (some e, headerOf v) := by
  cases v <;>
  · simp only [responder.Return, responder.take, headerOf, valueOf, StateT.run_bind, StateT.run_modify,
      StateT.run_get, StateT.run_monadLift, pure_bind, bind_assoc]
    refine bind_congr fun e => ?_
    cases e with
    | some e => rfl
    | none =>
      simp only [StateT.run_bind, StateT.run_monadLift, pure_bind, bind_assoc]
      refine bind_congr fun e => ?_
      cases e <;> simp

omit [DecidableEq α] [Text α] in
theorem answering_run (f : Rpc.Call α → Except (CallError α E) (Option V) → Result α V) (call : Rpc.Call α) :
    (answering c f call ch).run {} = Peer.Decode c.value.decode ch >>= fun args =>
      (responder.Return c ch (f call args)).run {} >>= fun r => pure ((), r.2) := by
  simp only [answering, StateT.run_bind, StateT.run_monadLift, pure_bind, bind_assoc]
  rfl

omit [DecidableEq α] [Text α] in
/-- `Return` writes its answer. -/
theorem Return_speaks (v : Result α V) : Speaks fails ch inp (frames (response c (some v))) (fun _ => True)
    ((responder.Return c ch v).run {}) := by
  rw [Return_run]
  refine Speaks.Encode (fun e _ => Speaks.ret trivial) fun b _ r => ?_
  cases r with
  | some e => exact Speaks.ret trivial
  | none =>
    refine Speaks.Encode (fun e _ => Speaks.ret trivial) fun b _ r => ?_
    cases r with
    | some e => exact Speaks.ret trivial
    | none => exact Speaks.close fun r => Speaks.ret trivial

def Dispatched.map {H H' : Type} (g : H → H') : Dispatched α H → Dispatched α H'
  | .rejected e => .rejected e
  | .missing e => .missing e
  | .answered h call => .answered (g h) call

/-- The handler of a path, found among the functions. -/
theorem Respond_map {H H' : Type} (g : H → H') (order : List (List α × H)) (call : Rpc.Call α) :
    Rpc.Respond (order.map fun b => (b.1, g b.2)) call = Dispatched.map g (Rpc.Respond order call) := by
  have hsel : ∀ path, RespondMux.Handler (order.map fun b => (b.1, g b.2)) path =
      (RespondMux.Handler order path).map g := by
    intro path
    rw [RespondMux.Handler, RespondMux.Handler, RespondMux.selected, RespondMux.selected,
      List.find?_map, Option.map_map, Option.map_map]
    rfl
  rw [Rpc.Respond, Rpc.Respond]
  cases call.Parse with
  | error e => rfl
  | ok call =>
    dsimp only
    rw [hsel]
    cases RespondMux.Handler order call.Destination <;> rfl

/-- With the request coming in, `Respond` writes the response to it, whatever follows. -/
theorem Respond_speaks_more (hc : Faithful c.call) (hv : Faithful c.value)
    (order : List (List α × (Rpc.Call α → Except (CallError α E) (Option V) → Result α V)))
    {more : List UInt8} (hmore : ∀ e, .error e ∈ request c path args → more = []) :
    Speaks false ch (frames (request c path args) ++ more) (frames (response c (answerOf order path args)))
      (fun _ => True) (Respond c (order.map fun b => (b.1, answering c b.2)) ch) := by
  refine Speaks.bind (P := fun _ => True) ?_ fun _ inp _ => Speaks.close fun _ => Speaks.ret trivial
  refine Speaks.Decode_more (fun b hb => (hc _ b hb).1) (fun e he => hmore e ?_) (fun hf => by cases hf)
    fun b hb => ?_
  · rw [request, he]
    exact List.mem_cons_self
  rw [(hc _ b hb).2]
  dsimp only [Except.mapError]
  rw [Respond_map, answerOf]
  cases Rpc.Respond order (callOf path) with
  | rejected e => exact Speaks.ret trivial
  | missing text =>
    exact Speaks.bind (P := fun _ => True) (Return_speaks _) fun _ inp _ => Speaks.ret trivial
  | answered f call =>
    refine Speaks.bind (P := fun _ => True) ?_ fun _ inp _ => Speaks.ret trivial
    rw [answering_run]
    refine Speaks.Decode_more (fun b hb => (hv _ b hb).1) (fun e he => hmore e ?_) (fun hf => by cases hf)
      fun b hb => ?_
    · rw [request, he]
      exact List.mem_cons_of_mem _ List.mem_cons_self
    rw [(hv _ b hb).2]
    exact Speaks.bind (P := fun _ => True) (Return_speaks _) fun _ inp _ => Speaks.ret trivial

theorem Respond_speaks (hc : Faithful c.call) (hv : Faithful c.value)
    (order : List (List α × (Rpc.Call α → Except (CallError α E) (Option V) → Result α V))) :
    Speaks false ch (frames (request c path args)) (frames (response c (answerOf order path args)))
      (fun _ => True) (Respond c (order.map fun b => (b.1, answering c b.2)) ch) := by
  rw [← List.append_nil (frames (request c path args))]
  exact Respond_speaks_more hc hv order fun _ _ => rfl

omit [DecidableEq α] in
/-- Whatever comes in, `Call` writes its request. -/
theorem exchange_writes : Speaks fails ch inp (frames (request c path args)) (fun _ => True)
    (caller.exchange c path args reply ch) := by
  refine Speaks.Encode (fun e he => Speaks.close fun _ => Speaks.ret trivial) fun b _ r => ?_
  cases r with
  | some e => exact Speaks.close fun _ => Speaks.ret trivial
  | none =>
    refine Speaks.Encode (fun e he => Speaks.close fun _ => Speaks.ret trivial) fun b _ r => ?_
    cases r with
    | some e => exact Speaks.close fun _ => Speaks.ret trivial
    | none =>
      refine Speaks.Decode_any fun inp x => ?_
      cases x with
      | error e => exact Speaks.close fun _ => Speaks.ret trivial
      | ok header =>
        have silent : ∀ inp, Speaks fails ch inp [] (fun _ => True)
            (caller.response c ch header reply) := by
          intro inp
          rw [caller.response]
          cases header.Error with
          | some e => exact Speaks.ret trivial
          | none =>
            cases reply with
            | true => exact Speaks.Decode_any fun inp x => by cases x <;> exact Speaks.ret trivial
            | false => exact Speaks.Decode_any fun inp x => by cases x <;> exact Speaks.ret trivial
        dsimp only
        split
        · exact silent inp
        · exact Speaks.bind (silent inp) fun _ inp _ => Speaks.close fun _ => Speaks.ret trivial

omit [DecidableEq α] in
/-- With the response coming in, `Call` writes the request and returns the answer in it. -/
theorem exchange_speaks (hh : Faithful c.header) (hv : Faithful c.value) (a : Option (Result α V)) :
    Speaks true ch (frames (response c a)) (frames (request c path args))
      (CameTo c path args reply ch a) (caller.exchange c path args reply ch) := by
  have lost : ∀ {inp out} {resp : Option (Response α V)} (e : SessionError),
      Speaks true ch inp out (CameTo c path args reply ch a) (.ret (resp, some (.session e))) :=
    fun e => Speaks.ret (.inr (.inl ⟨e, rfl⟩))
  refine Speaks.Encode (fun e he => ?_) fun b _ r => ?_
  · exact Speaks.close fun _ => Speaks.ret (.inl ⟨e, rfl, by rw [request, ← he]; exact List.mem_cons_self⟩)
  cases r with
  | some e => exact Speaks.close fun _ => lost e
  | none =>
    refine Speaks.Encode (fun e he => ?_) fun b _ r => ?_
    · exact Speaks.close fun _ => Speaks.ret (.inl ⟨e, rfl, by
        rw [request, ← he]; exact List.mem_cons_of_mem _ List.mem_cons_self⟩)
    cases r with
    | some e => exact Speaks.close fun _ => lost e
    | none =>
      have failed : ∀ inp e, Speaks true ch inp [] (CameTo c path args reply ch a)
          (Close ch >>= fun _ => pure (none, some (.session e))) :=
        fun inp e => Speaks.close fun _ => lost e
      cases a with
      | none => exact Speaks.Decode_nil fun _ inp e => failed inp e
      | some x =>
        refine Speaks.Decode (fun b hb => (hh _ b hb).1) (fun _ inp e => failed inp e) fun b hb => ?_
        rw [(hh _ b hb).2]
        have close : ∀ r inp, CameTo c path args reply ch (some x) r →
            Speaks true ch inp [] (CameTo c path args reply ch (some x))
              (Close ch >>= fun _ => pure r) :=
          fun r inp hr => Speaks.close fun _ => Speaks.ret hr
        cases x with
        | error text => exact Speaks.bind (Speaks.ret (.inr (.inr ⟨_, rfl, rfl⟩))) close
        | ok v =>
          refine Speaks.bind ?_ close
          cases reply with
          | true =>
            refine Speaks.Decode (fun b hb => (hv _ b hb).1) (fun _ inp e => lost e) fun b hb => ?_
            rw [(hv _ b hb).2]
            exact Speaks.ret (.inr (.inr ⟨_, rfl, rfl, fun _ => rfl⟩))
          | false =>
            refine Speaks.Decode (fun b hb => (hv _ b hb).1) (fun _ inp e => ?_) fun b hb => ?_
            · exact Speaks.ret (.inr (.inr ⟨_, rfl, rfl, fun h => by cases h⟩))
            · cases c.buffer b <;> exact Speaks.ret (.inr (.inr ⟨_, rfl, rfl, fun h => by cases h⟩))

/-- **A call is answered by its handler.** Both ends of a channel do some of their operations, in any
order, and what each end has read is from the front of what the other has written. Where each read
was full, a `Call` that has returned has the answer to its path and arguments, or could not encode
them, or its error is one of the session. -/
theorem call_answered (hcall : Faithful c.call) (hheader : Faithful c.header) (hvalue : Faithful c.value)
    (order : List (List α × (Rpc.Call α → Except (CallError α E) (Option V) → Result α V)))
    {ch ch' : Nat} {es es' : List Done} {r : Reply α V E} {rest : Go Unit}
    (called : Steps (caller.exchange c path args reply ch) es (.ret r))
    (responded : Steps (Respond c (order.map fun b => (b.1, answering c b.2)) ch') es' rest)
    (full : FullReads true ch es) (full' : FullReads false ch' es')
    (requested : received ch' es' <+: written ch es) (answered : received ch es <+: written ch' es') :
    CameTo c path args reply ch (answerOf order path args) r := by
  obtain ⟨hreq, -⟩ := exchange_writes es _ called full (List.prefix_refl _)
  obtain ⟨hres, -⟩ := Respond_speaks hcall hvalue order es' rest responded full' (requested.trans hreq)
  exact (exchange_speaks hheader hvalue _ es _ called full (answered.trans hres)).2 r rfl

end Qtalk.Rpc.Peer
