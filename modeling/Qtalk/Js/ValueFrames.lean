import Qtalk.Js.JsonCodec

/-!
# The values of a call as frames

The frames that `caller.call` of `javascript/rpc/caller.ts` and `return` and `hijack` of
`javascript/rpc/responder.ts` write with the JSON codec, on their way to the read loop of the
peer's `FrameCodec`. A value that `JSON.stringify` has no text for makes an empty frame: the
loop's `read(0)` is answered with whatever is in the buffer, and `JSON.parse` throws on nothing.
And `Channel.write` puts a frame's body into one data message, which the peer refuses if it is
longer than its `maxIncomingPayload`.
-/

namespace Qtalk.Js.Rpc
open Qtalk.Lib

variable {N : Type}

namespace Engine

variable (eng : Engine N)

/-- The data messages that `FrameCodec.encode` writes; a throw of the codec comes before both. -/
def writes (v : JsValue N) : Except String (List (List UInt8)) :=
  (eng.encode v).map fun buf => [setUint32 (List.replicate 4 0) 0 buf.length, buf]

/-- Several calls of `encode`, each awaited before the next; one that throws is the last. -/
def messages : List (JsValue N) → List (List UInt8)
  | [] => []
  | v :: vs =>
    match eng.writes v with
    | .error _ => []
    | .ok writes => writes ++ messages vs

/-- `JSON.stringify` gives a text that fits into a data message. -/
def Passable (v : JsValue N) : Prop :=
  ∃ text, eng.stringify v = .ok (some text) ∧ (utf8 text).length ≤ channelMaxPacket

end Engine

/-- A reader with a frame codec, and the data messages on their way to it. -/
structure Transfer (N : Type) where
  world : World (Json N) Unit
  inFlight : List (List UInt8)

namespace Transfer

inductive Act where
  /-- the read loop goes on -/
  | resume
  /-- the first message is handled -/
  | deliver
  /-- `decode()` -/
  | decode
  deriving DecidableEq, Repr

/-- A message that the channel refuses stays where it is: the session's loop has thrown. -/
def next (eng : Engine N) (t : Transfer N) : Act → Option (Transfer N)
  | .resume => (t.world.resume eng.jsonCodec).map fun world => { t with world }
  | .deliver =>
    match t.inFlight with
    | [] => none
    | data :: inFlight => (t.world.arrive data).map fun world => { world, inFlight }
  | .decode =>
    some { t with world := { t.world.decode t.world.calls with calls := t.world.calls + 1 } }

/-- The values are written to a channel as a session makes it. -/
def start (eng : Engine N) (vs : List (JsValue N)) (readLimit : Int) : Transfer N :=
  { world := Rpc.start opened [] readLimit, inFlight := eng.messages vs }

/-- Nobody calls `decode`. -/
def ByItself : Transfer N → Act → Prop := fun _ a => a ≠ .decode

/-- The values the loop has decoded. -/
def handed (t : Transfer N) : List (Json N) := t.world.resolved.map Prod.snd ++ t.world.fc.buf

/-- The loop has not thrown, the values it decoded are those passed, and it has taken no bytes of a
frame that follows the one it is in. -/
structure Sound (eng : Engine N) (vs : List (JsValue N)) (t : Transfer N) : Prop where
  runs : t.world.fc.readLoop ≠ .threw
  inOrder : t.handed <+: vs.map eng.json
  exact : ∃ taken unread, t.world.channel.readBuf = some unread ∧ t.world.arrived = taken ++ unread ∧
    taken <+: (eng.messages (vs.take (t.handed.length + 1))).flatten

/-- The calls of `decode` that have a value come to be answered. -/
def Settles (eng : Engine N) (vs : List (JsValue N)) (t : Transfer N) : Prop :=
  ∃ t', Run (next eng) ByItself t t' ∧
    ∀ k v, k < t.world.calls → vs[k]? = some v → (k, eng.json v) ∈ t'.world.resolved

/-- Every value is a decodable frame. -/
def Passes (eng : Engine N) (vs : List (JsValue N)) (readLimit : Int) : Prop :=
  ∀ t, Run (next eng) anyStep (start eng vs readLimit) t → t.Sound eng vs ∧ t.Settles eng vs

/-! ## What has come in -/

variable {eng : Engine N} {vs : List (JsValue N)} {readLimit : Int} {t t' : Transfer N} {a : Act}

/-- The messages that came in are the first, and none of them is too long. -/
structure Received (eng : Engine N) (vs : List (JsValue N)) (t : Transfer N) (came : List (List UInt8)) :
    Prop where
  split : eng.messages vs = came ++ t.inFlight
  arrived : t.world.arrived = came.flatten
  fits : ∀ m ∈ came, m.length ≤ channelMaxPacket
  payload : t.world.channel.maxIncomingPayload = channelMaxPacket
  window : t.world.channel.myWindow + came.flatten.length = channelWindowSize

theorem tryRead_window {ω : Type} (c : Channel ω) (p len : Nat) :
    (c.tryRead p len).2.maxIncomingPayload = c.maxIncomingPayload ∧
      (c.tryRead p len).2.myWindow = c.myWindow := by
  rw [Channel.tryRead]
  split
  · exact ⟨rfl, rfl⟩
  · split
    · exact ⟨rfl, rfl⟩
    · split <;> exact ⟨rfl, rfl⟩

/-- What the read loop leaves as it is. -/
theorem resume_frame {codec : Codec (Json N)} {w w' : World (Json N) Unit}
    (h : w.resume codec = some w') :
    w'.arrived = w.arrived ∧ w'.calls = w.calls ∧
      w'.channel.maxIncomingPayload = w.channel.maxIncomingPayload ∧
      w'.channel.myWindow = w.channel.myWindow := by
  rw [World.resume] at h
  split at h
  · cases h
    exact ⟨rfl, rfl, tryRead_window _ _ _⟩
  · cases h
    exact ⟨rfl, rfl, rfl, rfl⟩
  · split at h <;> cases h
    · exact ⟨rfl, rfl, rfl, rfl⟩
    · exact ⟨rfl, rfl, tryRead_window _ _ _⟩
  · cases h
    exact ⟨rfl, rfl, rfl, rfl⟩
  · dsimp only at h
    split at h <;> cases h
    · exact ⟨rfl, rfl, rfl, rfl⟩
    · obtain ⟨hchannel, harrived, hcalls, -, -⟩ := hand_frame w.count ‹Json N›
      exact ⟨harrived, hcalls, congrArg _ hchannel, congrArg _ hchannel⟩
  · cases h

/-- A message that comes in. -/
theorem arrive_frame {w w' : World (Json N) Unit} {data : List UInt8} (h : w.arrive data = some w') :
    data.length ≤ w.channel.maxIncomingPayload ∧ data.length ≤ w.channel.myWindow ∧
      w'.arrived = w.arrived ++ data ∧ w'.calls = w.calls ∧
      w'.channel.maxIncomingPayload = w.channel.maxIncomingPayload ∧
      w'.channel.myWindow = w.channel.myWindow - data.length := by
  rw [World.arrive] at h
  cases hd : w.channel.handleData data.length data with
  | error e =>
    rw [hd] at h
    cases h
  | ok r =>
    obtain ⟨woken, ch⟩ := r
    obtain ⟨hpayload, hwindow, hcases⟩ := Channel.handleData_ok hd
    have hch : ch.maxIncomingPayload = w.channel.maxIncomingPayload ∧
        ch.myWindow = w.channel.myWindow - data.length := by
      rcases hcases with ⟨-, -, rfl⟩ | ⟨p, len, readers, -, -, rfl⟩
      · exact ⟨rfl, rfl⟩
      · exact tryRead_window _ _ _
    rw [hd] at h
    cases woken <;> (cases h; exact ⟨hpayload, hwindow, rfl, rfl, hch⟩)

/-- A message that is not too long and fits the window is accepted. -/
theorem arrive_accepts {w : World (Json N) Unit} {data : List UInt8}
    (hpayload : data.length ≤ w.channel.maxIncomingPayload)
    (hwindow : data.length ≤ w.channel.myWindow) : ∃ w', w.arrive data = some w' := by
  have hok : ∃ r, w.channel.handleData data.length data = .ok r := by
    rw [Channel.handleData, if_neg (Nat.not_lt.mpr hpayload), if_neg (Nat.not_lt.mpr hwindow)]
    split
    · exact ⟨_, rfl⟩
    · exact ⟨_, rfl⟩
  obtain ⟨⟨woken, ch⟩, hr⟩ := hok
  rw [World.arrive, hr]
  cases woken
  · exact ⟨_, rfl⟩
  · exact ⟨_, rfl⟩

theorem Received.start (eng : Engine N) (vs : List (JsValue N)) (readLimit : Int) :
    Received eng vs (start eng vs readLimit) [] :=
  ⟨rfl, rfl, fun m hm => (by cases hm), rfl, rfl⟩

theorem Received.deliver {came : List (List UInt8)} {w : World (Json N) Unit} {data : List UInt8}
    {inFlight : List (List UInt8)} (h : Received eng vs ⟨w, data :: inFlight⟩ came)
    (hn : next eng ⟨w, data :: inFlight⟩ .deliver = some t') : Received eng vs t' (came ++ [data]) := by
  obtain ⟨w', hw, rfl⟩ := Option.map_eq_some_iff.mp hn
  have hw : w.arrive data = some w' := hw
  obtain ⟨hlen, hfits, harrived, -, hpayload, hwindow⟩ := arrive_frame hw
  have hwin : w.channel.myWindow + came.flatten.length = channelWindowSize := h.window
  refine ⟨?_, ?_, ?_, hpayload.trans h.payload, ?_⟩
  · rw [h.split, List.append_assoc]
    rfl
  · rw [harrived, List.flatten_append, List.flatten_singleton]
    exact congrArg (· ++ data) h.arrived
  · intro m hm
    rcases List.mem_append.mp hm with hm | hm
    · exact h.fits m hm
    · rw [List.mem_singleton.mp hm]
      exact hlen.trans (Nat.le_of_eq h.payload)
  · rw [hwindow, List.flatten_append, List.flatten_singleton, List.length_append]
    omega

theorem Received.step {came : List (List UInt8)} (h : Received eng vs t came)
    (hn : next eng t a = some t') : ∃ came', Received eng vs t' came' := by
  obtain ⟨w, inFlight⟩ := t
  cases a with
  | resume =>
    obtain ⟨w', hw, rfl⟩ := Option.map_eq_some_iff.mp hn
    obtain ⟨harrived, -, hpayload, hwindow⟩ := resume_frame hw
    exact ⟨came, h.split, harrived.trans h.arrived, h.fits, hpayload.trans h.payload,
      by rw [hwindow]; exact h.window⟩
  | deliver =>
    cases inFlight with
    | nil => cases hn
    | cons data inFlight => exact ⟨_, h.deliver hn⟩
  | decode =>
    cases hn
    obtain ⟨hchannel, harrived, -⟩ := decode_frame w w.calls
    exact ⟨came, h.split, harrived.trans h.arrived, h.fits, (congrArg _ hchannel).trans h.payload,
      by rw [hchannel]; exact h.window⟩

theorem Received.of_run {ok : Transfer N → Act → Prop}
    (run : Run (next eng) ok (Transfer.start eng vs readLimit) t) : ∃ came, Received eng vs t came := by
  induction run with
  | start => exact ⟨[], .start eng vs readLimit⟩
  | step a _ _ hn ih =>
    obtain ⟨came, h⟩ := ih
    exact h.step hn

/-- The reader sees a run in which the data is cut from a stream, if the stream begins with all that
can come in. -/
theorem world_run {stream : List UInt8} (hstream : ∀ came rest, eng.messages vs = came ++ rest →
      (∀ m ∈ came, m.length ≤ channelMaxPacket) → came.flatten <+: stream)
    {ok : Transfer N → Act → Prop} (run : Run (next eng) ok (Transfer.start eng vs readLimit) t) :
    Run (Rpc.step eng.jsonCodec) (Carries stream) (Rpc.start opened [] readLimit) t.world := by
  induction run with
  | start => exact .start
  | @step t t' a hr hok hn ih =>
    obtain ⟨came, h⟩ := Received.of_run (.step a hr hok hn)
    obtain ⟨w, inFlight⟩ := t
    cases a with
    | resume =>
      obtain ⟨w', hw, rfl⟩ := Option.map_eq_some_iff.mp hn
      exact .step .resume ih trivial hw
    | deliver =>
      cases inFlight with
      | nil => cases hn
      | cons data inFlight =>
        obtain ⟨w', hw, rfl⟩ := Option.map_eq_some_iff.mp hn
        have hcame := hstream came inFlight h.split h.fits
        rw [← h.arrived, (arrive_frame hw).2.2.1] at hcame
        exact .step (.arrive data) ih hcame hw
    | decode =>
      cases hn
      exact .step .decode ih trivial rfl

/-! ## Values that pass -/

theorem stringify_encode {v : JsValue N} {text : List Char} (h : eng.stringify v = .ok (some text)) :
    eng.encode v = .ok (eng.jsonCodec.encode (eng.json v)) := by
  rw [Engine.encode, h, (eng.stringify_text h).1]
  rfl

/-- The messages of a value with a text. -/
theorem messages_cons {v : JsValue N} {text : List Char} (h : eng.stringify v = .ok (some text))
    (vs : List (JsValue N)) :
    eng.messages (v :: vs) =
      prefixOf eng.jsonCodec (eng.json v) :: eng.jsonCodec.encode (eng.json v) :: eng.messages vs := by
  rw [Engine.messages, Engine.writes, stringify_encode h]
  rfl

theorem texts_of_passable (h : ∀ v ∈ vs, eng.Passable v) :
    ∀ v ∈ vs, ∃ text, eng.stringify v = .ok (some text) := by
  intro v hv
  obtain ⟨text, htext, -⟩ := h v hv
  exact ⟨text, htext⟩

theorem body_length {v : JsValue N} (h : eng.Passable v) :
    (eng.jsonCodec.encode (eng.json v)).length ≤ channelMaxPacket := by
  obtain ⟨text, htext, hlen⟩ := h
  rw [(eng.stringify_text htext).1] at hlen
  exact hlen

/-- The messages of values with a text are their frames. -/
theorem messages_flatten (h : ∀ v ∈ vs, ∃ text, eng.stringify v = .ok (some text)) :
    (eng.messages vs).flatten = frames eng.jsonCodec (vs.map eng.json) := by
  induction vs with
  | nil => rfl
  | cons v vs ih =>
    obtain ⟨text, htext⟩ := h v List.mem_cons_self
    rw [messages_cons htext, List.flatten_cons, List.flatten_cons,
      ih fun v hv => h v (List.mem_cons_of_mem _ hv), ← List.append_assoc, ← frame_eq]
    rfl

theorem messages_fit (h : ∀ v ∈ vs, eng.Passable v) :
    ∀ m ∈ eng.messages vs, m.length ≤ channelMaxPacket := by
  induction vs with
  | nil =>
    intro m hm
    cases hm
  | cons v vs ih =>
    have hbody := body_length (h v List.mem_cons_self)
    obtain ⟨text, htext⟩ := texts_of_passable h v List.mem_cons_self
    intro m hm
    rw [messages_cons htext, List.mem_cons, List.mem_cons] at hm
    rcases hm with rfl | rfl | hm
    · rw [prefixOf_length]
      decide
    · exact hbody
    · exact ih (fun v hv => h v (List.mem_cons_of_mem _ hv)) m hm

/-- Messages that the channel accepts come in. -/
theorem delivered {msgs rest : List (List UInt8)} (hflight : t.inFlight = msgs ++ rest)
    {came : List (List UInt8)} (h : Received eng vs t came)
    (hfit : ∀ m ∈ msgs, m.length ≤ channelMaxPacket)
    (hwindow : (came ++ msgs).flatten.length ≤ channelWindowSize) :
    ∃ w, Run (next eng) ByItself t ⟨w, rest⟩ ∧ w.calls = t.world.calls ∧
      Received eng vs ⟨w, rest⟩ (came ++ msgs) := by
  induction msgs generalizing t came with
  | nil =>
    obtain ⟨w, inFlight⟩ := t
    cases hflight
    exact ⟨w, .start, rfl, by rw [List.append_nil]; exact h⟩
  | cons data msgs ih =>
    obtain ⟨w, inFlight⟩ := t
    cases hflight
    have hpayload : w.channel.maxIncomingPayload = channelMaxPacket := h.payload
    have hwin : w.channel.myWindow + came.flatten.length = channelWindowSize := h.window
    have hassoc : came ++ data :: msgs = came ++ [data] ++ msgs := by
      rw [List.append_assoc, List.singleton_append]
    have hroom : data.length ≤ w.channel.myWindow := by
      rw [List.flatten_append, List.flatten_cons, List.length_append, List.length_append] at hwindow
      omega
    obtain ⟨w', hw⟩ := arrive_accepts (hpayload ▸ hfit data List.mem_cons_self) hroom
    have hn : next eng ⟨w, data :: (msgs ++ rest)⟩ .deliver = some ⟨w', msgs ++ rest⟩ := by
      rw [next]
      dsimp only
      rw [hw]
      rfl
    have hcame := h.deliver hn
    obtain ⟨w2, run, hcalls, h2⟩ := ih rfl hcame (fun m hm => hfit m (List.mem_cons_of_mem _ hm))
      (hassoc ▸ hwindow)
    have first : Run (next eng) ByItself ⟨w, data :: (msgs ++ rest)⟩ ⟨w', msgs ++ rest⟩ :=
      .step .deliver .start (by simp [ByItself]) hn
    exact ⟨w2, first.trans run, hcalls.trans (arrive_frame hw).2.2.2.1, hassoc ▸ h2⟩

theorem messages_length (h : ∀ v ∈ vs, eng.Passable v) :
    (eng.messages vs).flatten.length ≤ vs.length * (4 + channelMaxPacket) := by
  induction vs with
  | nil => exact Nat.zero_le _
  | cons v vs ih =>
    have hbody := body_length (h v List.mem_cons_self)
    obtain ⟨text, htext⟩ := texts_of_passable h v List.mem_cons_self
    have hmore := ih fun v hv => h v (List.mem_cons_of_mem _ hv)
    rw [messages_cons htext, List.flatten_cons, List.flatten_cons, List.length_append,
      List.length_append, prefixOf_length, List.length_cons, Nat.succ_mul]
    omega

theorem messages_window (h : ∀ v ∈ vs, eng.Passable v) (hfew : vs.length < 64) :
    (eng.messages vs).flatten.length ≤ channelWindowSize := by
  have hlen := messages_length h
  have hmul : vs.length * (4 + channelMaxPacket) ≤ 63 * (4 + channelMaxPacket) :=
    Nat.mul_le_mul_right _ (by omega)
  have hroom : 63 * (4 + channelMaxPacket) ≤ channelWindowSize := by decide
  omega

theorem framable_all (hd : ∀ v ∈ vs, v.Distinct)
    (h : ∀ v ∈ vs, ∃ text, eng.stringify v = .ok (some text)) :
    ∀ j ∈ vs.map eng.json, Framable eng.jsonCodec j := by
  intro j hj
  obtain ⟨v, hv, rfl⟩ := List.mem_map.mp hj
  obtain ⟨text, htext⟩ := h v hv
  exact eng.framable (hd v hv) htext

theorem opened_unread : opened.Unread [] := ⟨rfl, rfl⟩

/-- While the loop reads frames of values, it is sound. -/
theorem sound_of_serving (hd : ∀ v ∈ vs, v.Distinct) (hpass : ∀ v ∈ vs, eng.Passable v)
    {unread held : List UInt8} (h : Serving eng.jsonCodec (vs.map eng.json) t.world unread held)
    (hp : t.world.arrived <+: frames eng.jsonCodec (vs.map eng.json) ++ [])
    (hend : Ends (vs.map eng.json) [] t.world.fc.readLimit) : t.Sound eng vs := by
  have htexts := texts_of_passable hpass
  have hhanded : t.handed = (vs.map eng.json).take t.world.fc.readCount := h.handed
  have hcount : t.handed.length = t.world.fc.readCount := by
    rw [hhanded, List.length_take]
    exact Nat.min_eq_left h.count
  refine ⟨fun hthrew => ?_, hhanded ▸ List.take_prefix _ _, _, unread, h.buffered.buf,
    by rw [h.taken, ← List.append_assoc], ?_⟩
  · have hmid := h.mid
    rw [hthrew] at hmid
    cases hmid
  · have hmore : ∀ v ∈ vs.take (t.world.fc.readCount + 1), ∃ text, eng.stringify v = .ok (some text) :=
      fun v hv => htexts v (List.mem_of_mem_take hv)
    rw [hcount, messages_flatten hmore, List.map_take]
    rcases h.held_part (framable_all hd htexts) hp hend with hnil | ⟨-, j, hj, hpart⟩
    · rw [hnil, List.append_nil]
      exact frames_take_mono _ _ (Nat.le_succ _)
    · rw [frames_take_succ hj, List.prefix_append_right_inj]
      exact hpart

/-- The steps of the read loop alone. -/
theorem loop_run {w w' : World (Json N) Unit} (inFlight : List (List UInt8))
    (run : Run (Rpc.step eng.jsonCodec) Rpc.ByItself w w') :
    Run (next eng) ByItself ⟨w, inFlight⟩ ⟨w', inFlight⟩ := by
  induction run with
  | start => exact .start
  | step a _ hok hn ih =>
    cases hok
    have hnext : next eng ⟨_, inFlight⟩ .resume = some ⟨_, inFlight⟩ :=
      congrArg (Option.map fun world => (⟨world, inFlight⟩ : Transfer N)) hn
    exact .step .resume ih (by simp [ByItself]) hnext

/-- The calls of `encode` are for the values of a call, or for a loop without a limit. -/
def Limits (vs : List (JsValue N)) (readLimit : Int) : Prop := readLimit ≤ 0 ∨ readLimit = vs.length

/-- A loop with a limit that is not lower serves all values. -/
theorem served_all (h : readLimit ≤ 0 ∨ (vs.length : Int) ≤ readLimit) :
    served (vs.map eng.json) readLimit = vs.map eng.json := by
  rw [served]
  split
  · rw [List.take_of_length_le]
    rw [List.length_map]
    omega
  · rfl

theorem Limits.served (h : Limits vs readLimit) :
    served (vs.map eng.json) readLimit = vs.map eng.json :=
  served_all (h.imp_right fun h => Int.le_of_eq h.symm)

/-- The reader of values that have a text sees a run in which the data is cut from their frames. -/
theorem frames_run (htexts : ∀ v ∈ vs, ∃ text, eng.stringify v = .ok (some text))
    {ok : Transfer N → Act → Prop} (run : Run (next eng) ok (Transfer.start eng vs readLimit) t) :
    Run (Rpc.step eng.jsonCodec) (Carries (frames eng.jsonCodec (vs.map eng.json) ++ []))
      (Rpc.start opened [] readLimit) t.world := by
  refine world_run (fun came rest hsplit _ => ?_) run
  rw [List.append_nil, ← messages_flatten htexts, hsplit, List.flatten_append]
  exact List.prefix_append _ _

/-- Values that have a text that fits pass. -/
theorem passes_of_passable (hd : ∀ v ∈ vs, v.Distinct) (hfew : vs.length < 64)
    (hlimit : Limits vs readLimit) (hpass : ∀ v ∈ vs, eng.Passable v) : Passes eng vs readLimit := by
  have htexts := texts_of_passable hpass
  have hjs := framable_all hd htexts
  have hstream := messages_flatten htexts
  have hend : Ends (vs.map eng.json) [] readLimit := .inl rfl
  intro t run
  obtain ⟨unread, held, h, hp, hl⟩ := Run.serving hjs hend opened_unread rfl List.nil_prefix
    (frames_run htexts run)
  refine ⟨sound_of_serving hd hpass h hp (hl ▸ hend), ?_⟩
  obtain ⟨came, hcame⟩ := Received.of_run run
  have hfit : ∀ m ∈ t.inFlight, m.length ≤ channelMaxPacket := fun m hm =>
    messages_fit hpass m (hcame.split ▸ List.mem_append_right _ hm)
  have hwindow : (came ++ t.inFlight).flatten.length ≤ channelWindowSize :=
    hcame.split ▸ messages_window hpass hfew
  obtain ⟨w, arriving, hcalls, hall⟩ := delivered (List.append_nil _).symm hcame hfit hwindow
  have hrun := frames_run htexts (run.trans (arriving.weaken fun _ _ _ => trivial))
  have hin : frames eng.jsonCodec (served (vs.map eng.json) readLimit) <+: w.arrived := by
    have harrived : w.arrived = (eng.messages vs).flatten := by
      rw [hall.split, List.append_nil]
      exact hall.arrived
    rw [hlimit.served, harrived, hstream]
  obtain ⟨-, w', loops, -, hcalls', -, hcomplete⟩ :=
    (frames_delivered eng.jsonCodec _ hjs [] readLimit hend opened_unread rfl List.nil_prefix hrun).2 hin
  refine ⟨⟨w', []⟩, arriving.trans (loop_run [] loops), fun k v hk hv => ?_⟩
  refine hcomplete.answered k _ ?_ ?_
  · rw [hcalls', hcalls]
    exact hk
  · rw [hlimit.served, List.getElem?_map, hv]
    rfl

/-! ## Values that do not -/

/-- Messages further back change nothing. -/
theorem more_inFlight (more : List (List UInt8)) (run : Run (next eng) ByItself t t') :
    Run (next eng) ByItself ⟨t.world, t.inFlight ++ more⟩ ⟨t'.world, t'.inFlight ++ more⟩ := by
  induction run with
  | start => exact .start
  | @step t1 t2 a _ hok hn ih =>
    refine .step a ih hok ?_
    obtain ⟨w, inFlight⟩ := t1
    cases a with
    | resume =>
      obtain ⟨w', hw, rfl⟩ := Option.map_eq_some_iff.mp hn
      exact congrArg (Option.map fun world => (⟨world, inFlight ++ more⟩ : Transfer N)) hw
    | deliver =>
      cases inFlight with
      | nil => cases hn
      | cons data inFlight =>
        obtain ⟨w', hw, rfl⟩ := Option.map_eq_some_iff.mp hn
        exact congrArg (Option.map fun world => (⟨world, inFlight ++ more⟩ : Transfer N)) hw
    | decode => exact absurd rfl hok

theorem messages_append {good : List (JsValue N)} (h : ∀ v ∈ good, ∃ text, eng.stringify v = .ok (some text))
    (vs : List (JsValue N)) : eng.messages (good ++ vs) = eng.messages good ++ eng.messages vs := by
  induction good with
  | nil => rfl
  | cons v good ih =>
    obtain ⟨text, htext⟩ := h v List.mem_cons_self
    rw [List.cons_append, messages_cons htext, messages_cons htext,
      ih fun v hv => h v (List.mem_cons_of_mem _ hv), List.cons_append, List.cons_append]

/-- A loop that stands between two frames and waits. -/
theorem parked_of_midframe {unread held : List UInt8} {readLoop : ReadLoop} {readers : List (Nat × Nat)}
    (h : Midframe unread readLoop readers held) (hheld : held = []) (hyielded : readLoop ≠ .yielded)
    (hreturned : readLoop ≠ .returned) : readers = [(0, 4)] ∧ readLoop = .readingLen .pending := by
  cases h with
  | yielded => exact absurd rfl hyielded
  | waitLen _ => exact ⟨rfl, rfl⟩
  | gotLen hbs =>
    rw [hheld] at hbs
    cases hbs
  | waitBody hbs _ =>
    rw [hheld] at hbs
    cases hbs
  | gotBody hbs _ =>
    rw [(List.append_eq_nil_iff.mp hheld).1] at hbs
    cases hbs
  | returned => exact absurd rfl hreturned

/-- A loop that is to decode more than the values stands at `read(4)` once it has decoded them. -/
theorem drained (hd : ∀ v ∈ vs, v.Distinct) (hpass : ∀ v ∈ vs, eng.Passable v) (hfew : vs.length < 64)
    (hmore : readLimit ≤ 0 ∨ vs.length < readLimit) :
    ∃ w, Run (next eng) ByItself (Transfer.start eng vs readLimit) ⟨w, []⟩ ∧
      w.channel.maxIncomingPayload = channelMaxPacket ∧
      w.channel.myWindow + (eng.messages vs).flatten.length = channelWindowSize ∧
      w.channel.Unread [] ∧ w.channel.readers = [(0, 4)] ∧ w.fc.readLoop = .readingLen .pending := by
  have htexts := texts_of_passable hpass
  have hjs := framable_all hd htexts
  have hstream := messages_flatten htexts
  have hend : Ends (vs.map eng.json) [] readLimit := .inl rfl
  obtain ⟨w, arriving, -, hall⟩ := delivered (List.append_nil _).symm (Received.start eng vs readLimit)
    (messages_fit hpass) (messages_window hpass hfew)
  have hworld := frames_run htexts arriving
  obtain ⟨unread, held, h, hp, hl⟩ := Run.serving hjs hend opened_unread rfl List.nil_prefix hworld
  obtain ⟨w', unread', held', loops, h', hstop, harrived, hl', -⟩ := h.settles hjs hp (hl ▸ hend)
  have hcame : w.arrived = frames eng.jsonCodec (vs.map eng.json) := hall.arrived.trans hstream
  have hserved : served (vs.map eng.json) w'.fc.readLimit = vs.map eng.json := by
    rw [hl', hl]
    exact served_all (hmore.imp_right Int.le_of_lt)
  obtain ⟨hdone, hheld⟩ := h'.decoded_all hjs (harrived ▸ hp) (hl' ▸ hl ▸ hend)
    (by rw [hserved, harrived, hcame]) hstop
  rw [hserved] at hdone
  have hunread : unread' = [] := by
    have htaken := h'.taken
    rw [harrived, hcame, ← hdone, hheld] at htaken
    simpa using htaken
  have hloop : w'.fc.readLoop ≠ .returned := by
    intro hl2
    have hcount := h'.count
    rw [List.length_map] at hcount
    obtain ⟨hpos, hle⟩ := h'.limit.mp hl2
    rw [hl', hl] at hpos hle
    omega
  obtain ⟨came, hreceived⟩ := Received.of_run (arriving.trans (loop_run [] loops))
  have hcame' : came = eng.messages vs := by
    have hsplit := hreceived.split
    rw [List.append_nil] at hsplit
    exact hsplit.symm
  refine ⟨w', arriving.trans (loop_run [] loops), hreceived.payload, hcame' ▸ hreceived.window,
    hunread ▸ h'.buffered, ?_⟩
  refine parked_of_midframe h'.mid hheld (fun hyielded => ?_) hloop
  rw [World.resume, hyielded] at hstop
  cases hstop

/-- `read(0)` on an empty buffer is answered with no bytes, and `JSON.parse` throws on them. -/
theorem throws_on_nothing {w : World (Json N) Unit} (hbuf : w.channel.readBuf = some [])
    (hloop : w.fc.readLoop = .readingLen (.data [0, 0, 0, 0])) :
    ∃ w', Run (Rpc.step eng.jsonCodec) Rpc.ByItself w w' ∧ w'.fc.readLoop = .threw := by
  have hsize : getUint32 [0, 0, 0, 0] 0 = some 0 := by decide
  have hlen : w.resume eng.jsonCodec = some (w.read 0 .readingBody) := by
    rw [World.resume, hloop]
    dsimp only
    rw [hsize]
  have hread : (w.read 0 .readingBody).fc.readLoop = .readingBody (.data []) := by
    rw [World.read, Channel.tryRead, hbuf]
    rfl
  have hparse : eng.jsonCodec.decode [] = none := eng.decode_nil
  have hbody : (w.read 0 .readingBody).resume eng.jsonCodec
      = some ((w.read 0 .readingBody).count.finish .threw) := by
    rw [World.resume, hread]
    dsimp only
    rw [hparse]
  exact ⟨_, .step .resume (.step .resume .start rfl hlen) rfl hbody, rfl⟩

/-- An empty frame makes the loop throw. -/
theorem empty_frame {w : World (Json N) Unit} (more : List (List UInt8))
    (hpayload : w.channel.maxIncomingPayload = channelMaxPacket)
    (hwindow : 4 ≤ w.channel.myWindow) (hc : w.channel.Unread [])
    (hr : w.channel.readers = [(0, 4)]) (hloop : w.fc.readLoop = .readingLen .pending) :
    ∃ t, Run (next eng) ByItself ⟨w, [0, 0, 0, 0] :: more⟩ t ∧ t.world.fc.readLoop = .threw := by
  obtain ⟨hbuf, heof⟩ := hc
  have hdata : w.channel.handleData 4 [0, 0, 0, 0] = .ok (some (0, .data [0, 0, 0, 0]),
      { w.channel with
        readers := [], myWindow := w.channel.myWindow - 4, readBuf := some [] }) := by
    rw [Channel.handleData, if_neg (by rw [hpayload]; decide), if_neg (Nat.not_lt.mpr hwindow), hr]
    simp [Channel.tryRead, Channel.take, hbuf, heof]
  obtain ⟨w', harrive, hbuf', hloop'⟩ : ∃ w', w.arrive [0, 0, 0, 0] = some w' ∧
      w'.channel.readBuf = some [] ∧ w'.fc.readLoop = .readingLen (.data [0, 0, 0, 0]) := by
    rw [World.arrive]
    dsimp only [List.length_cons, List.length_nil]
    rw [hdata, hloop]
    exact ⟨_, rfl, rfl, rfl⟩
  have first : Run (next eng) ByItself ⟨w, [0, 0, 0, 0] :: more⟩ ⟨w', more⟩ :=
    .step .deliver .start (by simp [ByItself])
      (congrArg (Option.map fun world => (⟨world, more⟩ : Transfer N)) harrive)
  obtain ⟨w2, loops, hthrew⟩ := throws_on_nothing hbuf' hloop'
  exact ⟨⟨w2, more⟩, first.trans (loop_run more loops), hthrew⟩

theorem decode_calls (eng : Engine N) (t : Transfer N) (n : Nat) :
    ∃ t', Run (next eng) anyStep t t' ∧ t'.world.calls = t.world.calls + n := by
  induction n with
  | zero => exact ⟨t, .start, rfl⟩
  | succ n ih =>
    obtain ⟨t', run, hcalls⟩ := ih
    refine ⟨_, .step .decode run trivial rfl, ?_⟩
    dsimp only
    rw [hcalls, Nat.add_assoc]

/-- A call of `decode` is not answered whose frame cannot come in whole. -/
theorem not_resolved {js : List (Json N)} (hjs : ∀ j ∈ js, Framable eng.jsonCodec j)
    {stream : List UInt8} (hframes : stream <+: frames eng.jsonCodec js)
    (hstream : ∀ came rest, eng.messages vs = came ++ rest →
      (∀ m ∈ came, m.length ≤ channelMaxPacket) → came.flatten <+: stream)
    {i : Nat} (hshort : i < js.length → stream.length < (frames eng.jsonCodec (js.take (i + 1))).length)
    {ok : Transfer N → Act → Prop} (run : Run (next eng) ok (Transfer.start eng vs readLimit) t)
    (j : Json N) : (i, j) ∉ t.world.resolved := by
  intro hmem
  have hrun : Run (Rpc.step eng.jsonCodec) (Carries (frames eng.jsonCodec js ++ []))
      (Rpc.start opened [] readLimit) t.world := by
    refine world_run (fun came rest hsplit hfits => ?_) run
    rw [List.append_nil]
    exact (hstream came rest hsplit hfits).trans hframes
  obtain ⟨unread, held, h, -, -⟩ :=
    Run.serving hjs (.inl rfl) opened_unread rfl List.nil_prefix hrun
  obtain ⟨i', hi'⟩ := List.getElem?_of_mem hmem
  obtain ⟨rfl, -, hread⟩ := h.resolved hi'
  obtain ⟨came, hcame⟩ := Received.of_run run
  have harrived := (hstream came _ hcame.split hcame.fits).length_le
  rw [← hcame.arrived, h.taken, List.length_append] at harrived
  have hmono := (frames_take_mono eng.jsonCodec js (m := i + 1) (n := t.world.fc.readCount) hread).length_le
  have hlt := hshort (Nat.lt_of_lt_of_le hread h.count)
  omega

theorem prefix_before {β : Type} {l l₁ l₂ : List β} {x : β} (h : l <+: l₁ ++ x :: l₂) (hx : x ∉ l) :
    l <+: l₁ := by
  obtain ⟨more, hmore⟩ := h
  rcases List.append_eq_append_iff.mp hmore with ⟨a, rfl, -⟩ | ⟨c, rfl, hc⟩
  · exact List.prefix_append _ _
  · cases c with
    | nil => rw [List.append_nil]
    | cons y c =>
      rw [List.cons_append] at hc
      refine absurd ?_ hx
      rw [(List.cons.inj hc).1]
      exact List.mem_append_right _ List.mem_cons_self

/-- The first value that is not passable. -/
theorem first_unpassable (h : ¬∀ v ∈ vs, eng.Passable v) :
    ∃ good v rest, vs = good ++ v :: rest ∧ (∀ v ∈ good, eng.Passable v) ∧ ¬eng.Passable v := by
  induction vs with
  | nil => exact absurd (fun v hv => by cases hv) h
  | cons v vs ih =>
    by_cases hv : eng.Passable v
    · obtain ⟨good, w, rest, rfl, hgood, hw⟩ :=
        ih fun hall => h fun w hw => by
          rcases List.mem_cons.mp hw with rfl | hw
          · exact hv
          · exact hall w hw
      refine ⟨v :: good, w, rest, rfl, fun w hw => ?_, hw⟩
      rcases List.mem_cons.mp hw with rfl | hw
      · exact hv
      · exact hgood w hw
    · exact ⟨[], v, vs, rfl, fun w hw => (by cases hw), hv⟩

section First

variable {good rest : List (JsValue N)} {v : JsValue N}

/-- A value on which `JSON.stringify` throws is not written. -/
theorem unanswered_of_error (hd : ∀ w ∈ good, w.Distinct) (hgood : ∀ w ∈ good, eng.Passable w) {e : String}
    (hs : eng.stringify v = .error e)
    (run : Run (next eng) anyStep (Transfer.start eng (good ++ v :: rest) readLimit) t) :
    (good.length, eng.json v) ∉ t.world.resolved := by
  have htexts := texts_of_passable hgood
  have hmessages := messages_append htexts (v :: rest)
  have hwrites : eng.messages (v :: rest) = [] := by
    rw [Engine.messages, Engine.writes, Engine.encode, hs]
    rfl
  rw [hwrites, List.append_nil] at hmessages
  refine not_resolved (framable_all hd htexts) List.prefix_rfl ?_ ?_ run _
  · intro came more hsplit _
    rw [← messages_flatten htexts, ← hmessages, hsplit, List.flatten_append]
    exact List.prefix_append _ _
  · rw [List.length_map]
    exact fun hlt => absurd hlt (Nat.lt_irrefl _)

/-- A value of which `JSON.stringify` is undefined makes an empty frame. -/
theorem throws_of_undefined (hd : ∀ w ∈ good, w.Distinct) (hgood : ∀ w ∈ good, eng.Passable w)
    (hfew : good.length < 63) (hmore : readLimit ≤ 0 ∨ (good.length : Int) < readLimit)
    (hs : eng.stringify v = .ok none) :
    ∃ t, Run (next eng) ByItself (Transfer.start eng (good ++ v :: rest) readLimit) t ∧
      t.world.fc.readLoop = .threw := by
  have htexts := texts_of_passable hgood
  have hwrites : eng.messages (v :: rest) = [0, 0, 0, 0] :: [] :: eng.messages rest := by
    rw [Engine.messages, Engine.writes, Engine.encode, hs]
    have hzero : setUint32 (List.replicate 4 0) 0 0 = [0, 0, 0, 0] := by decide
    exact congrArg (fun l => l :: [] :: eng.messages rest) hzero
  obtain ⟨w, run, hpayload, hwindow, hc, hr, hloop⟩ :=
    drained hd hgood (Nat.lt_of_lt_of_le hfew (by decide)) hmore
  have hroom : 4 ≤ w.channel.myWindow := by
    have hlen := messages_length hgood
    have hmul : good.length * (4 + channelMaxPacket) ≤ 62 * (4 + channelMaxPacket) :=
      Nat.mul_le_mul_right _ (by omega)
    have hleft : 62 * (4 + channelMaxPacket) + 4 ≤ channelWindowSize := by decide
    omega
  obtain ⟨t, throws, hthrew⟩ := empty_frame ([] :: eng.messages rest) hpayload hroom hc hr hloop
  have hstart : Transfer.start eng (good ++ v :: rest) readLimit
      = ⟨(Transfer.start eng good readLimit).world,
          (Transfer.start eng good readLimit).inFlight ++ [0, 0, 0, 0] :: [] :: eng.messages rest⟩ := by
    rw [Transfer.start, messages_append htexts, hwrites]
    rfl
  rw [hstart]
  exact ⟨t, (more_inFlight _ run).trans throws, hthrew⟩

/-- A body that is too long is refused. -/
theorem unanswered_of_long (hd : ∀ w ∈ good, w.Distinct) (hgood : ∀ w ∈ good, eng.Passable w)
    (hdv : v.Distinct) {text : List Char} (hs : eng.stringify v = .ok (some text))
    (hlong : channelMaxPacket < (utf8 text).length)
    (run : Run (next eng) anyStep (Transfer.start eng (good ++ v :: rest) readLimit) t) :
    (good.length, eng.json v) ∉ t.world.resolved := by
  have htexts := texts_of_passable hgood
  have hmessages := messages_append htexts (v :: rest)
  let body := eng.jsonCodec.encode (eng.json v)
  let lenPrefix := prefixOf eng.jsonCodec (eng.json v)
  have hbody : channelMaxPacket < body.length := by
    rw [(eng.stringify_text hs).1] at hlong
    exact hlong
  have hwrites : eng.messages (v :: rest) = lenPrefix :: body :: eng.messages rest := messages_cons hs rest
  have hjs : ∀ j ∈ good.map eng.json ++ [eng.json v], Framable eng.jsonCodec j := by
    intro j hj
    rcases List.mem_append.mp hj with hj | hj
    · exact framable_all hd htexts j hj
    · rw [List.mem_singleton.mp hj]
      exact eng.framable hdv hs
  have hframes : frames eng.jsonCodec (good.map eng.json ++ [eng.json v])
      = (eng.messages good ++ [lenPrefix]).flatten ++ body := by
    rw [frames, List.flatMap_append, List.flatMap_singleton, frame_eq, List.flatten_append,
      List.flatten_singleton, messages_flatten htexts, frames, List.append_assoc]
  refine not_resolved hjs (hframes ▸ List.prefix_append _ _) ?_ ?_ run _
  · intro came more hsplit hfits
    have hcame : came <+: eng.messages good ++ [lenPrefix] ++ body :: eng.messages rest := by
      rw [List.append_assoc, List.singleton_append, ← hwrites, ← hmessages, hsplit]
      exact List.prefix_append _ _
    obtain ⟨left, hleft⟩ := prefix_before hcame fun hmem => Nat.not_lt.mpr (hfits _ hmem) hbody
    rw [← hleft, List.flatten_append]
    exact List.prefix_append _ _
  · intro _
    have hlen := congrArg List.length hframes
    rw [List.length_append] at hlen
    rw [List.take_of_length_le (by simp)]
    omega

end First

/-- Values of which one has no text that fits do not pass. -/
theorem passable_of_passes (hd : ∀ v ∈ vs, v.Distinct) (hfew : vs.length < 64)
    (hlimit : Limits vs readLimit) (h : Passes eng vs readLimit) : ∀ v ∈ vs, eng.Passable v := by
  by_contra hnot
  obtain ⟨good, v, rest, rfl, hgood, hv⟩ := first_unpassable hnot
  have hdgood : ∀ w ∈ good, w.Distinct := fun w hw => hd w (List.mem_append_left _ hw)
  rw [List.length_append, List.length_cons] at hfew
  -- as many calls of `decode` as it takes to ask for `v`
  have answered : ∃ t, Run (next eng) anyStep (Transfer.start eng (good ++ v :: rest) readLimit) t ∧
      (good.length, eng.json v) ∈ t.world.resolved := by
    obtain ⟨t, run, hcalls⟩ :=
      decode_calls eng (Transfer.start eng (good ++ v :: rest) readLimit) (good.length + 1)
    obtain ⟨-, t', more, hresolved⟩ := h t run
    refine ⟨t', run.trans (more.weaken fun _ _ _ => trivial), hresolved _ v ?_ (by simp)⟩
    rw [hcalls]
    exact Nat.lt_of_lt_of_le (Nat.lt_succ_self _) (Nat.le_add_left _ _)
  obtain ⟨t, run, hmem⟩ := answered
  cases hs : eng.stringify v with
  | error e => exact unanswered_of_error hdgood hgood hs run hmem
  | ok text =>
    cases text with
    | none =>
      have hmore : readLimit ≤ 0 ∨ (good.length : Int) < readLimit := by
        rw [Limits, List.length_append, List.length_cons] at hlimit
        omega
      obtain ⟨t, throws, hthrew⟩ :
          ∃ t, Run (next eng) ByItself (Transfer.start eng (good ++ v :: rest) readLimit) t ∧
            t.world.fc.readLoop = .threw :=
        throws_of_undefined hdgood hgood (by omega) hmore hs
      exact (h t (throws.weaken fun _ _ _ => trivial)).1.runs hthrew
    | some text =>
      have hlong : channelMaxPacket < (utf8 text).length :=
        Nat.lt_of_not_le fun hle => hv ⟨text, hs, hle⟩
      have hdv : v.Distinct := hd v (List.mem_append_right _ List.mem_cons_self)
      exact unanswered_of_long hdgood hgood hdv hs hlong run hmem

/-- Values pass exactly if each has a text that fits. -/
theorem passes_iff (hd : ∀ v ∈ vs, v.Distinct) (hfew : vs.length < 64) (hlimit : Limits vs readLimit) :
    Passes eng vs readLimit ↔ ∀ v ∈ vs, eng.Passable v :=
  ⟨passable_of_passes hd hfew hlimit, passes_of_passable hd hfew hlimit⟩

end Transfer

/-! ## A call -/

/-- A property name. -/
def propName (s : String) : List UInt16 := utf16 s.toList

/-- The object of class `Call`, with the fields it declares. -/
def CallFields.value (c : CallFields UInt16) : JsValue N :=
  .object [(propName "Destination", .string c.Destination),
    (propName "objectPath", .string c.objectPath), (propName "method", .string c.method),
    (propName "caller", .undefined), (propName "decode", .undefined)]

/-- The object of class `ResponseHeader`. -/
def responseHeader (error : Option (List UInt16)) (hijacked : Bool) : JsValue N :=
  .object [(propName "Error", (error.map .string).getD .undefined), (propName "Hijacked", .bool hijacked)]

/-- The arguments as `CallProxy` passes them. -/
def proxyParams : List (JsValue N) → JsValue N
  | [] => .undefined
  | [arg] => arg
  | args => .array args

/-- What is given to `return` or `hijack`: an instance of `Error` with its message, or another
value. -/
inductive Returned (N : Type) where
  | error (message : List UInt16)
  | value (v : JsValue N)

def Returned.Distinct : Returned N → Prop
  | .error _ => True
  | .value v => v.Distinct

/-- What `caller.call` writes. -/
def callValues (call : CallFields UInt16) (args : JsValue N) : List (JsValue N) := [call.value, args]

/-- What `responder.return` and `responder.hijack` write. -/
def replyValues (hijacked : Bool) : Returned N → List (JsValue N)
  | .error message => [responseHeader (some message) hijacked, .null]
  | .value v => [responseHeader none hijacked, v]

theorem CallFields.value_distinct (c : CallFields UInt16) : (c.value : JsValue N).Distinct :=
  have hnames : [propName "Destination", propName "objectPath", propName "method", propName "caller",
      propName "decode"].Nodup := by decide
  ⟨hnames, trivial, trivial, trivial, trivial, trivial, trivial⟩

theorem responseHeader_distinct (error : Option (List UInt16)) (hijacked : Bool) :
    (responseHeader error hijacked : JsValue N).Distinct := by
  have hnames : [propName "Error", propName "Hijacked"].Nodup := by decide
  refine ⟨hnames, ?_, trivial, trivial⟩
  cases error <;> trivial

/-- **The values of a call.** The request gets through to the responder's read loop, which has no
limit, and the reply to the caller's, which reads two frames and answers the two calls of
`decode` that the caller awaits, if and only if `JSON.stringify` gives a text that fits into
one data message for each of the values: neither undefined nor a throw. -/
theorem values_pass (eng : Engine N) (call : CallFields UInt16) {args : JsValue N}
    (hargs : args.Distinct) (hijacked : Bool) {result : Returned N} (hresult : result.Distinct) :
    (Transfer.Passes eng (callValues call args) (-1) ↔ ∀ v ∈ callValues call args, eng.Passable v) ∧
      (Transfer.Passes eng (replyValues hijacked result) 2 ↔
        ∀ v ∈ replyValues hijacked result, eng.Passable v) := by
  have hfew : 2 < 64 := by decide
  constructor
  · refine Transfer.passes_iff (fun v hv => ?_) hfew (.inl (by decide))
    simp only [callValues, List.mem_cons, List.not_mem_nil, or_false] at hv
    rcases hv with rfl | rfl
    · exact call.value_distinct
    · exact hargs
  · cases result with
    | error message =>
      refine Transfer.passes_iff (fun v hv => ?_) hfew (.inr rfl)
      simp only [replyValues, List.mem_cons, List.not_mem_nil, or_false] at hv
      rcases hv with rfl | rfl
      · exact responseHeader_distinct _ _
      · trivial
    | value w =>
      refine Transfer.passes_iff (fun v hv => ?_) hfew (.inr rfl)
      simp only [replyValues, List.mem_cons, List.not_mem_nil, or_false] at hv
      rcases hv with rfl | rfl
      · exact responseHeader_distinct _ _
      · exact hresult

/-- An engine whose numbers are the natural numbers. -/
def naturals : Engine Nat where
  numbers := decimal
  zero := 0
  maxLength := 2 ^ 29 - 24
  short := by decide
  replaced buf := buf.map fun _ => '\uFFFD'

/-- The fields of the call of `/add`. -/
def addCall : CallFields UInt16 := ⟨utf16 "add".toList, utf16 "/".toList, utf16 "add".toList⟩

/-- Two numbers as arguments, and a handler that returns an object. -/
theorem values_pass_run :
    Transfer.Passes naturals
        (callValues addCall (proxyParams [.number (.finite 5), .number (.finite 12)])) (-1) ∧
      Transfer.Passes naturals
        (replyValues false (.value (.object [(propName "sum", .number (.finite 17))]))) 2 := by
  have hargs : (proxyParams [.number (.finite 5), .number (.finite 12)] : JsValue Nat).Distinct :=
    ⟨trivial, trivial, trivial⟩
  have hresult : (Returned.value (.object [(propName "sum", .number (.finite 17))]) :
      Returned Nat).Distinct := ⟨by decide, trivial, trivial⟩
  obtain ⟨hcall, hreply⟩ := values_pass naturals addCall hargs false hresult
  refine ⟨hcall.mpr fun v hv => ?_, hreply.mpr fun v hv => ?_⟩
  · simp only [callValues, List.mem_cons, List.not_mem_nil, or_false] at hv
    rcases hv with rfl | rfl
    · exact ⟨"\x7b\"Destination\":\"add\",\"objectPath\":\"/\",\"method\":\"add\"\x7d".toList,
        by decide +kernel, by decide +kernel⟩
    · exact ⟨"[5,12]".toList, by decide +kernel, by decide +kernel⟩
  · simp only [replyValues, List.mem_cons, List.not_mem_nil, or_false] at hv
    rcases hv with rfl | rfl
    · exact ⟨"\x7b\"Hijacked\":false\x7d".toList, by decide +kernel, by decide +kernel⟩
    · exact ⟨"\x7b\"sum\":17\x7d".toList, by decide +kernel, by decide +kernel⟩

/-- A method without arguments called through `CallProxy`, and a handler without a result: the read
loop at the other end throws. -/
theorem undefined_not_passed :
    proxyParams [] = (.undefined : JsValue Nat) ∧
    (∃ t, Run (Transfer.next naturals) anyStep
        (Transfer.start naturals (callValues addCall .undefined) (-1)) t ∧
      t.world.fc.readLoop = .threw) ∧
    ¬Transfer.Passes naturals (callValues addCall .undefined) (-1) ∧
    ¬Transfer.Passes naturals (replyValues false (.value .undefined)) 2 := by
  have hcall : ∀ v ∈ [addCall.value], naturals.Passable v := by
    intro v hv
    rw [List.mem_singleton.mp hv]
    exact ⟨"\x7b\"Destination\":\"add\",\"objectPath\":\"/\",\"method\":\"add\"\x7d".toList,
      by decide +kernel, by decide +kernel⟩
  have hheader : ∀ v ∈ [responseHeader none false], naturals.Passable v := by
    intro v hv
    rw [List.mem_singleton.mp hv]
    exact ⟨"\x7b\"Hijacked\":false\x7d".toList, by decide +kernel, by decide +kernel⟩
  have hdcall : ∀ v ∈ [(addCall.value : JsValue Nat)], v.Distinct := fun v hv =>
    List.mem_singleton.mp hv ▸ addCall.value_distinct
  have hdheader : ∀ v ∈ [(responseHeader none false : JsValue Nat)], v.Distinct := fun v hv =>
    List.mem_singleton.mp hv ▸ responseHeader_distinct none false
  have hundefined : naturals.stringify .undefined = .ok none := rfl
  obtain ⟨t, run, hthrew⟩ :
      ∃ t, Run (Transfer.next naturals) Transfer.ByItself
          (Transfer.start naturals (callValues addCall .undefined) (-1)) t ∧
        t.world.fc.readLoop = .threw :=
    Transfer.throws_of_undefined hdcall hcall (by decide) (.inl (by decide)) hundefined
  obtain ⟨t', run', hthrew'⟩ :
      ∃ t, Run (Transfer.next naturals) Transfer.ByItself
          (Transfer.start naturals (replyValues false (.value .undefined)) 2) t ∧
        t.world.fc.readLoop = .threw :=
    Transfer.throws_of_undefined hdheader hheader (by decide) (.inr (by decide)) hundefined
  have hrun : Run (Transfer.next naturals) anyStep
      (Transfer.start naturals (callValues addCall .undefined) (-1)) t := run.weaken fun _ _ _ => trivial
  exact ⟨rfl, ⟨t, hrun, hthrew⟩, fun h => (h t hrun).1.runs hthrew,
    fun h => (h t' (run'.weaken fun _ _ _ => trivial)).1.runs hthrew'⟩

end Qtalk.Js.Rpc
