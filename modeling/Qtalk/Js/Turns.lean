import Qtalk.Js.Party

/-!
# The turns of an end

An end follows a line of writes, values and a `close` (`Part`). `Self` says where it is on its
line and what its channel and its codec are then; every step of it keeps that, and takes
something off its rank (`Turn`), and so does a message that comes in.
-/

namespace Qtalk.Js.Rpc
open Qtalk.Lib

variable {N ρ : Type}

/-! ## What an end is to do -/

def Line.bytes : Line N → List UInt8
  | .write buffer => buffer
  | _ => []

def Line.value? : Line N → Option (Json N)
  | .decode v => some v
  | _ => none

def written (lines : List (Line N)) : List UInt8 := lines.flatMap Line.bytes

def decoded (lines : List (Line N)) : List (Json N) := lines.filterMap Line.value?

/-- The line of one end, with the read limit of its codec. -/
structure Part (eng : Engine N) (ρ : Type) where
  lines : List (Line N)
  limit : Int
  result : ρ
  framable : ∀ j ∈ decoded lines, Framable eng.jsonCodec j
  fits : ∀ buffer, Line.write buffer ∈ lines → buffer ≠ [] ∧ buffer.length ≤ channelMaxPacket
  short : (frames eng.jsonCodec (decoded lines)).length ≤ channelWindowSize
  whole : served (decoded lines) limit = decoded lines
  last : ∀ done todo, lines = done ++ .close :: todo → todo = []

/-- How far an end is: what it has done and what it has yet to do, whether it has called `close`,
and whether it has handled a CloseMessage. -/
structure Mark (N : Type) where
  done : List (Line N)
  todo : List (Line N)
  own : Bool
  heard : Bool

/-- Both have happened that shut a channel down. -/
def Mark.down (m : Mark N) : Bool := m.own && m.heard

/-- Where the function stands, and how often it has called `decode`. -/
inductive Standing : Stand → Mark N → Nat → Prop
  | ready {done todo : List (Line N)} {heard : Bool} (h : .close ∉ done) :
      Standing .ready ⟨done, todo, false, heard⟩ (decoded done).length
  | decoding {done todo : List (Line N)} {v : Json N} {heard : Bool} (h : .close ∉ done) :
      Standing (.decoding (decoded done).length) ⟨done, .decode v :: todo, false, heard⟩
        ((decoded done).length + 1)
  | closing {done : List (Line N)} {heard : Bool} :
      Standing .closing ⟨done, [.close], true, heard⟩ (decoded done).length
  | closed {done : List (Line N)} {heard : Bool} :
      Standing .ready ⟨done ++ [.close], [], true, heard⟩ (decoded done).length

/-- What is left of the calls of `close`. -/
structure Closing (stand : Stand) (ready : Queue Bool Waiter) (tasks : List Task) (settled : List Nat)
    (down : Bool) : Prop where
  queue : ready.q = []
  closed : ready.closed = down
  behind : ∀ t ∈ tasks, ∃ p, p ≠ 0 ∧ (t = .closeSent p ∨ t = .closeReady p none)
  waiting : ∀ w ∈ ready.waiters, ∃ p, p ≠ 0 ∧ w = .closing p
  /-- the end's own comes back -/
  due : stand = .closing → 1 ∈ settled ∨ .closeSent 1 ∈ tasks ∨ .closeReady 1 none ∈ tasks ∨
    (down = false ∧ .closing 1 ∈ ready.waiters)

/-- A bound on what is still to come at an end and of it. -/
def Part.rank {eng : Engine N} (P : Part eng ρ) (x : Party N ρ) (m : Mark N) : Nat :=
  3 * m.todo.length + x.stand.rank + x.out.length + unsent x.world.channel.sentClose +
    total Task.rank x.tasks + parked m.down x.world.channel.ready.waiters.length +
      (4 * ((decoded P.lines).length - x.world.fc.readCount) + x.world.fc.readLoop.rank)

/-- An end is where its mark says. -/
structure Self {eng : Engine N} (P : Part eng ρ) (x : Party N ρ) (m : Mark N) : Prop where
  lines : P.lines = m.done ++ m.todo
  follows : Follows P.result m.todo x.prog
  standing : Standing x.stand m x.world.calls
  answered : (decoded m.done).length ≤ x.world.resolved.length
  cut : x.world.arrived <+: frames eng.jsonCodec (decoded P.lines)
  sentEOF : x.world.channel.sentEOF = false
  sentClose : x.world.channel.sentClose = (m.own || m.heard)
  removed : x.removed = m.down
  closing : Closing x.stand x.world.channel.ready x.tasks x.settled m.down
  payload : x.world.channel.maxIncomingPayload = channelMaxPacket
  window : x.world.channel.myWindow + x.world.arrived.length = channelWindowSize
  idle : x.world.channel.sentClose = false → x.tasks = []
  serving : m.down = false → ∃ unread held,
    Serving eng.jsonCodec (decoded P.lines) x.world unread held ∧ x.world.fc.readLimit = P.limit
  emptied : m.down = true → x.world.channel.readBuf = none
  count : x.world.fc.readCount + x.world.fc.readLoop.holding ≤ (decoded P.lines).length

section Lines

@[simp] theorem decoded_append (a b : List (Line N)) : decoded (a ++ b) = decoded a ++ decoded b :=
  List.filterMap_append

@[simp] theorem written_append (a b : List (Line N)) : written (a ++ b) = written a ++ written b :=
  List.flatMap_append

@[simp] theorem decoded_nil : decoded ([] : List (Line N)) = [] := rfl

@[simp] theorem decoded_write (buffer : List UInt8) (l : List (Line N)) :
    decoded (.write buffer :: l) = decoded l := rfl

@[simp] theorem decoded_decode (v : Json N) (l : List (Line N)) :
    decoded (.decode v :: l) = v :: decoded l := rfl

@[simp] theorem decoded_close (l : List (Line N)) : decoded (.close :: l) = decoded l := rfl

@[simp] theorem written_nil : written ([] : List (Line N)) = [] := rfl

@[simp] theorem written_write (buffer : List UInt8) (l : List (Line N)) :
    written (.write buffer :: l) = buffer ++ written l := rfl

@[simp] theorem written_decode (v : Json N) (l : List (Line N)) : written (.decode v :: l) = written l := rfl

@[simp] theorem written_close (l : List (Line N)) : written (.close :: l) = written l := rfl

end Lines

/-! ## The turns of an end -/

/-- What a turn of one end comes to: for the other end it is nothing, or a write, or its first
`close`. -/
inductive Turn {eng : Engine N} (P : Part eng ρ) (x : Party N ρ) (m : Mark N) (x' : Party N ρ)
    (m' : Mark N) : Prop
  | quiet (h : Self P x' m') (hout : x'.out = x.out)
      (hclose : x'.world.channel.sentClose = x.world.channel.sentClose)
      (harrived : x'.world.arrived = x.world.arrived) (hheard : m'.heard = m.heard)
      (hwritten : written m'.done = written m.done)
      (htodo : ∀ buffer, Line.write buffer ∈ m'.todo → Line.write buffer ∈ m.todo)
      (hrank : P.rank x' m' < P.rank x m)
  | wrote {buffer : List UInt8} (h : Self P x' m') {id : Nat}
      (hout : x'.out = x.out ++ [.data id buffer.length buffer])
      (hopen : x.world.channel.sentClose = false)
      (hclose : x'.world.channel.sentClose = x.world.channel.sentClose)
      (harrived : x'.world.arrived = x.world.arrived) (hheard : m'.heard = m.heard)
      (htodo : m.todo = .write buffer :: m'.todo) (hwritten : written m'.done = written m.done ++ buffer)
      (hrank : P.rank x' m' < P.rank x m)
  | closed (h : Self P x' m') {id : Nat} (hout : x'.out = x.out ++ [.close id])
      (hopen : x.world.channel.sentClose = false) (hclose : x'.world.channel.sentClose = true)
      (harrived : x'.world.arrived = x.world.arrived) (hheard : m'.heard = m.heard)
      (hdone : m'.done = m.done) (htodo : m'.todo = m.todo) (hall : m.todo = [.close])
      (hrank : P.rank x' m' < P.rank x m)

section Turns

variable {eng : Engine N} {P : Part eng ρ} {x x' : Party N ρ} {m m' : Mark N}

/-- Where the end is behind its turn, and what a turn leaves as it is. -/
theorem Turn.after (h : Turn P x m x' m') :
    Self P x' m' ∧ x'.world.arrived = x.world.arrived ∧ m'.heard = m.heard ∧
      (∀ buffer, Line.write buffer ∈ m'.todo → Line.write buffer ∈ m.todo) ∧
      P.rank x' m' < P.rank x m := by
  cases h with
  | quiet h _ _ harrived hheard _ htodo hrank => exact ⟨h, harrived, hheard, htodo, hrank⟩
  | wrote h _ _ _ harrived hheard htodo _ hrank =>
    exact ⟨h, harrived, hheard, fun b hb => htodo ▸ List.mem_cons_of_mem _ hb, hrank⟩
  | closed h _ _ _ harrived hheard _ htodo _ hrank =>
    exact ⟨h, harrived, hheard, fun b hb => htodo ▸ hb, hrank⟩

theorem Self.cut_nil (h : Self P x m) : x.world.arrived <+: frames eng.jsonCodec (decoded P.lines) ++ [] := by
  rw [List.append_nil]
  exact h.cut

theorem Self.write (h : Self P x m) {buffer : List UInt8} {k : Option String → Async N ρ}
    {todo : List (Line N)} (hstand : x.stand = .ready) (htodo : m.todo = .write buffer :: todo)
    (hk : Follows P.result todo (k none)) (hopen : x.world.channel.sentClose = false) :
    Turn P x m
      { x.enter (x.world.channel.write buffer) with prog := k (x.world.channel.write buffer).error }
      { m with done := m.done ++ [.write buffer], todo } := by
  rw [write_open h.sentEOF hopen]
  refine .wrote ?_ rfl hopen rfl rfl rfl htodo (by simp) ?_
  rotate_left
  · rw [Part.rank, Part.rank, htodo]
    simp only [Party.enter, List.foldl_cons, List.foldl_nil, Party.perform, List.length_append,
      List.length_cons, List.length_nil, Mark.down]
    omega
  have hs := h.standing
  rw [hstand] at hs
  obtain ⟨done, _, own, heard⟩ := m
  cases htodo
  refine { h with lines := ?_, follows := hk, standing := ?_, answered := ?_ }
  · simp [h.lines]
  · have hlen : (decoded (done ++ [.write buffer])).length = (decoded done).length := by simp
    show Standing x.stand _ x.world.calls
    rw [hstand]
    generalize x.world.calls = n at hs
    cases hs with
    | ready hnot =>
      rw [← hlen]
      exact .ready (by simpa using hnot)
  · rw [decoded_append, decoded_write, decoded_nil, List.append_nil]
    exact h.answered

theorem Self.issue (h : Self P x m) {v : Json N} {todo : List (Line N)} (hstand : x.stand = .ready)
    (htodo : m.todo = .decode v :: todo) :
    Turn P x m { x with
      world := { x.world.decode x.world.calls with calls := x.world.calls + 1 }
      stand := .decoding x.world.calls } m := by
  obtain ⟨hchannel, harrived, hloop, hcount, hlimit, hresolved⟩ := decode_frame x.world x.world.calls
  have hs := h.standing
  rw [hstand] at hs
  have hrank : P.rank { x with
      world := { x.world.decode x.world.calls with calls := x.world.calls + 1 }
      stand := .decoding x.world.calls } m < P.rank x m := by
    rw [Part.rank, Part.rank, hstand]
    simp only [hchannel, hloop, hcount, Stand.rank]
    omega
  refine .quiet ?_ rfl (congrArg Channel.sentClose hchannel) harrived rfl rfl (fun _ hb => hb) hrank
  refine { h with
    standing := ?_, answered := h.answered.trans hresolved, cut := harrived ▸ h.cut
    idle := hchannel ▸ h.idle, count := by rw [hloop, hcount]; exact h.count
    sentEOF := hchannel ▸ h.sentEOF, sentClose := hchannel ▸ h.sentClose
    closing := ?_, payload := hchannel ▸ h.payload, window := ?_, serving := fun hd => ?_
    emptied := fun hd => hchannel ▸ h.emptied hd }
  · obtain ⟨done, _, own, heard⟩ := m
    cases htodo
    dsimp only
    generalize x.world.calls = n at hs
    cases hs with
    | ready hnot => exact .decoding hnot
  · rw [hchannel]
    exact { h.closing with due := fun hst => by cases hst }
  · rw [hchannel, harrived]
    exact h.window
  · obtain ⟨unread, held, hserv, hl⟩ := h.serving hd
    exact ⟨unread, held, hserv.decode, hlimit.trans hl⟩

/-- The value of a call of `decode` is the one that is due. -/
theorem Self.awaited (h : Self P x m) {v : Json N} {todo : List (Line N)} {k : Json N → Async N ρ}
    {c : Nat} {a : Nat × Json N} (hstand : x.stand = .decoding c) (htodo : m.todo = .decode v :: todo)
    (hk : Follows P.result todo (k v)) (ha : x.world.resolved.find? (fun a => a.1 = c) = some a) :
    Turn P x m { x with prog := k a.2, stand := .ready }
      { m with done := m.done ++ [.decode v], todo } := by
  have hs := h.standing
  have hlines := h.lines
  rw [hstand] at hs
  obtain ⟨done, _, own, heard⟩ := m
  cases htodo
  generalize hcalls : x.world.calls = n at hs
  cases hs with
  | decoding hnot =>
    obtain ⟨unread, held, hserv, -⟩ := h.serving rfl
    obtain ⟨i, hi⟩ := List.getElem?_of_mem (List.mem_of_find?_eq_some ha)
    have hkey : a.1 = (decoded done).length := by simpa using List.find?_some ha
    obtain ⟨rfl, hv, hlt⟩ := hserv.resolved hi
    rw [hkey, hlines, decoded_append, List.getElem?_append_right (Nat.le_refl _), Nat.sub_self] at hv
    cases hv
    refine .quiet ?_ rfl rfl rfl rfl (by simp) (fun b hb => List.mem_cons_of_mem _ hb) ?_
    rotate_left
    · simp only [Part.rank, hstand, Stand.rank, List.length_cons, Mark.down]
      omega
    refine { h with
      lines := by simp [hlines], follows := hk, standing := ?_, answered := ?_
      closing := { h.closing with due := fun hst => by cases hst } }
    · show Standing .ready _ x.world.calls
      have hlen : (decoded (done ++ [.decode a.2])).length = (decoded done).length + 1 := by simp
      rw [hcalls, ← hlen]
      exact .ready (by simpa using hnot)
    · have hlt' := (List.getElem?_eq_some_iff.mp hi).1
      rw [decoded_append, List.length_append]
      show (decoded done).length + 1 ≤ x.world.resolved.length
      omega

/-- `close` has come back. -/
theorem Self.came (h : Self P x m) {todo : List (Line N)} {k : Unit → Async N ρ}
    (hstand : x.stand = .closing) (htodo : m.todo = .close :: todo)
    (hk : Follows P.result todo (k ())) :
    Turn P x m { x with prog := k (), stand := .ready } { m with done := m.done ++ [.close], todo } := by
  have hs := h.standing
  have hlines := h.lines
  rw [hstand] at hs
  obtain ⟨done, _, own, heard⟩ := m
  cases htodo
  generalize hcalls : x.world.calls = n at hs
  cases hs with
  | closing =>
    refine .quiet ?_ rfl rfl rfl rfl (by simp) (fun b hb => by cases hb) ?_
    rotate_left
    · simp only [Part.rank, hstand, Stand.rank, List.length_cons, Mark.down]
      omega
    refine { h with
      lines := by simp [hlines], follows := hk, standing := ?_, answered := ?_
      closing := { h.closing with due := fun hst => by cases hst } }
    · show Standing .ready _ x.world.calls
      rw [hcalls]
      exact .closed
    · rw [decoded_append, decoded_close, decoded_nil, List.append_nil]
      exact h.answered

/-- What is left of `close` once the channel is shut down: every wait for it comes to its end. -/
theorem Closing.shut {stand stand' : Stand} {ready : Queue Bool Waiter} {tasks : List Task}
    {settled : List Nat} (h : Closing stand ready tasks settled false) (p : Nat)
    (hdue : stand' = .closing → stand = .closing ∨ p = 1) :
    Closing stand' ready.close.1 (tasks ++ ready.close.2.map (Waiter.task none)) (settled ++ [p])
      true := by
  have hclose : ready.close = ({ ready with closed := true }, ready.waiters) := by
    rw [Queue.close, if_neg (by simp [h.closed])]
  rw [hclose]
  refine ⟨h.queue, rfl, fun t ht => ?_, h.waiting, fun hst => ?_⟩
  · rcases List.mem_append.mp ht with ht | ht
    · exact h.behind t ht
    · obtain ⟨w, hw, rfl⟩ := List.mem_map.mp ht
      obtain ⟨q, hq, rfl⟩ := h.waiting w hw
      exact ⟨q, hq, .inr rfl⟩
  · rcases hdue hst with hst | rfl
    · rcases h.due hst with hmem | hmem | hmem | ⟨-, hmem⟩
      · exact .inl (List.mem_append_left _ hmem)
      · exact .inr (.inl (List.mem_append_left _ hmem))
      · exact .inr (.inr (.inl (List.mem_append_left _ hmem)))
      · exact .inr (.inr (.inl (List.mem_append_right _ (List.mem_map_of_mem hmem))))
    · exact .inl (by simp)

/-- The reads parked in the channel are those of the read loop. -/
theorem Self.readers (h : Self P x m) (hd : m.down = false) :
    x.world.channel.readers = [] ∨ ∃ len, x.world.channel.readers = [(0, len)] := by
  obtain ⟨unread, held, hserv, -⟩ := h.serving hd
  exact Responding.Midframe.alone hserv.mid

/-- The second of the two events that shut a channel down. -/
theorem Self.shut (h : Self P x m) (m' : Mark N) (p : Nat) (stand : Stand)
    (hclose : x.world.channel.sentClose = true) (hd : m.down = false) (hd' : m'.down = true) (hp : p ≠ 0)
    (hdone : m'.done = m.done) (htodo : m'.todo = m.todo) (hown : m'.own = true)
    (hstanding : Standing stand m' x.world.calls) (hdue : stand = .closing → x.stand = .closing ∨ p = 1) :
    Self P { x.enter (x.world.channel.close p) with stand } m' ∧
      (x.enter (x.world.channel.close p)).out = x.out ∧
      (x.enter (x.world.channel.close p)).world.channel.sentClose = true ∧
      (x.enter (x.world.channel.close p)).world.arrived = x.world.arrived ∧
      P.rank { x.enter (x.world.channel.close p) with stand } m' + x.stand.rank ≤
        P.rank x m + stand.rank := by
  obtain ⟨fc, hcount, hrank, hholding, henter⟩ := enter_shutdown hclose (h.readers hd) hp
  rw [henter]
  have hclosing := h.closing
  rw [hd] at hclosing
  have hqueue : x.world.channel.ready.close = ({ x.world.channel.ready with closed := true },
      x.world.channel.ready.waiters) := by
    rw [Queue.close, if_neg (by simp [hclosing.closed])]
  refine ⟨{ h with
    lines := by rw [hdone, htodo]; exact h.lines
    follows := htodo ▸ h.follows
    standing := hstanding
    answered := by rw [hdone]; exact h.answered
    sentClose := ?_, removed := hd'.symm, closing := ?_
    idle := fun hopen => ?_, serving := fun hd'' => ?_, emptied := fun _ => rfl
    count := ?_ }, rfl, hclose, rfl, ?_⟩
  · rw [hown]
    exact hclose
  · rw [hd']
    exact hclosing.shut p hdue
  · rw [show (Rpc.shut x.world.channel).sentClose = true from hclose] at hopen
    cases hopen
  · rw [hd'] at hd''
    cases hd''
  · have hle := h.count
    show fc.readCount + fc.readLoop.holding ≤ (decoded P.lines).length
    omega
  · simp only [Part.rank, hqueue, hd, hd', htodo, hcount, hrank, Rpc.shut, parked, total_append,
      rank_waiters]
    have hless : (if true then 0 else 2 * x.world.channel.ready.waiters.length) = 0 := rfl
    simp
    omega

/-- The end calls `close` itself. -/
theorem Self.close (h : Self P x m) {todo : List (Line N)} (hstand : x.stand = .ready)
    (htodo : m.todo = .close :: todo) :
    Turn P x m { x.enter (x.world.channel.close 1) with stand := .closing } { m with own := true } := by
  have hs := h.standing
  have hlines := h.lines
  rw [hstand] at hs
  obtain ⟨done, _, own, heard⟩ := m
  cases htodo
  obtain rfl : todo = [] := P.last done todo hlines
  generalize hcalls : x.world.calls = n at hs
  cases hs with
  | ready hnot =>
    have hsent : x.world.channel.sentClose = heard := h.sentClose
    cases heard with
    | false =>
      rw [close_first hsent]
      refine .closed ?_ rfl hsent rfl rfl rfl rfl rfl rfl ?_
      rotate_left
      · simp only [Part.rank, Party.enter, List.foldl_cons, List.foldl_nil, Party.perform, hstand,
          Stand.rank, hsent, unsent, parked, Mark.down, List.length_append, total_append]
        simp [Task.rank]
        omega
      obtain ⟨unread, held, hserv, hlimit⟩ := h.serving rfl
      refine { h with
        standing := ?_, sentClose := rfl
        idle := fun hopen => by cases hopen
        serving := fun _ => ⟨unread, held, hserv.channel rfl rfl rfl, hlimit⟩
        closing := ⟨h.closing.queue, h.closing.closed, fun t ht => ?_, h.closing.waiting, fun _ => ?_⟩ }
      · show Standing .closing _ x.world.calls
        rw [hcalls]
        exact .closing
      · rcases List.mem_append.mp ht with ht | ht
        · exact h.closing.behind t ht
        · exact ⟨1, by decide, .inl (List.mem_singleton.mp ht)⟩
      · exact .inr (.inl (List.mem_append_right _ (List.mem_singleton_self _)))
    | true =>
      have hshut := h.shut ⟨done, [.close], true, true⟩ 1 .closing hsent rfl rfl
        (by decide) rfl rfl rfl (hcalls ▸ .closing) fun _ => .inr rfl
      obtain ⟨hself, hout, hclose, harrived, hrank⟩ := hshut
      refine .quiet hself hout (hclose.trans hsent.symm) harrived rfl rfl (fun _ hb => hb) ?_
      rw [hstand] at hrank
      simp only [Stand.rank] at hrank
      exact hrank

/-- The function goes on. -/
theorem Self.goOn (h : Self P x m)
    (hopen : ∀ buffer, .write buffer ∈ m.todo → x.world.channel.sentClose = false)
    (hn : x.goOn = some x') : ∃ m', Turn P x m x' m' := by
  have hf := h.follows
  generalize htodo : m.todo = todo at hf
  rw [Party.goOn] at hn
  split at hn
  · next hstand hprog =>
    rw [hprog] at hf
    cases hn
    cases hf with
    | write hk => exact ⟨_, h.write hstand htodo hk (hopen _ (htodo ▸ List.mem_cons_self))⟩
  · next hstand hprog =>
    rw [hprog] at hf
    cases hn
    cases hf with
    | decode => exact ⟨_, h.issue hstand htodo⟩
  · next hstand hprog =>
    rw [hprog] at hf
    cases hn
    cases hf with
    | close => exact ⟨_, h.close hstand htodo⟩
  · next hstand hprog =>
    rw [hprog] at hf
    obtain ⟨a, ha, rfl⟩ := Option.map_eq_some_iff.mp hn
    cases hf with
    | decode hk => exact ⟨_, h.awaited hstand htodo hk ha⟩
  · next hstand hprog =>
    rw [hprog] at hf
    split at hn
    · cases hn
      cases hf with
      | close hk => exact ⟨_, h.came hstand htodo hk⟩
    · cases hn
  · cases hn

/-! ### The tasks -/

section Tasks

variable {stand : Stand} {ready : Queue Bool Waiter} {tasks : List Task} {settled : List Nat}
  {down : Bool} {i p : Nat}

/-- `close` goes on behind `send`, and waits for its channel to be shut down. -/
theorem Closing.wait (h : Closing stand ready tasks settled false)
    (hi : tasks[i]? = some (.closeSent p)) (hp : p ≠ 0) :
    Closing stand { ready with waiters := ready.waiters ++ [.closing p] } (tasks.eraseIdx i) settled
      false := by
  refine ⟨h.queue, h.closed, forall_eraseIdx h.behind, fun w hw => ?_, fun hst => ?_⟩
  · rcases List.mem_append.mp hw with hw | hw
    · exact h.waiting w hw
    · exact ⟨p, hp, List.mem_singleton.mp hw⟩
  · rcases h.due hst with hmem | hmem | hmem | ⟨-, hmem⟩
    · exact .inl hmem
    · rcases mem_cases hi hmem with heq | hmem
      · cases heq
        exact .inr (.inr (.inr ⟨rfl, List.mem_append_right _ (List.mem_singleton_self _)⟩))
      · exact .inr (.inl hmem)
    · rcases mem_cases hi hmem with heq | hmem
      · cases heq
      · exact .inr (.inr (.inl hmem))
    · exact .inr (.inr (.inr ⟨rfl, List.mem_append_left _ hmem⟩))

/-- It is shut down already. -/
theorem Closing.pass (h : Closing stand ready tasks settled true)
    (hi : tasks[i]? = some (.closeSent p)) (hp : p ≠ 0) :
    Closing stand ready (tasks.eraseIdx i ++ [.closeReady p none]) settled true := by
  refine ⟨h.queue, h.closed, fun t ht => ?_, h.waiting, fun hst => ?_⟩
  · rcases List.mem_append.mp ht with ht | ht
    · exact forall_eraseIdx h.behind t ht
    · exact ⟨p, hp, .inr (List.mem_singleton.mp ht)⟩
  · rcases h.due hst with hmem | hmem | hmem | ⟨hd, -⟩
    · exact .inl hmem
    · rcases mem_cases hi hmem with heq | hmem
      · cases heq
        exact .inr (.inr (.inl (List.mem_append_right _ (List.mem_singleton_self _))))
      · exact .inr (.inl (List.mem_append_left _ hmem))
    · rcases mem_cases hi hmem with heq | hmem
      · cases heq
      · exact .inr (.inr (.inl (List.mem_append_left _ hmem)))
    · cases hd

/-- `close` comes to its end. -/
theorem Closing.settle (h : Closing stand ready tasks settled down)
    (hi : tasks[i]? = some (.closeReady p none)) :
    Closing stand ready (tasks.eraseIdx i) (settled ++ [p]) down := by
  refine ⟨h.queue, h.closed, forall_eraseIdx h.behind, h.waiting, fun hst => ?_⟩
  rcases h.due hst with hmem | hmem | hmem | hmem
  · exact .inl (List.mem_append_left _ hmem)
  · rcases mem_cases hi hmem with heq | hmem
    · cases heq
    · exact .inr (.inl hmem)
  · rcases mem_cases hi hmem with heq | hmem
    · cases heq
      exact .inl (List.mem_append_right _ (List.mem_singleton_self _))
    · exact .inr (.inr (.inl hmem))
  · exact .inr (.inr (.inr hmem))

end Tasks

/-- A task goes on. -/
theorem Self.resume (h : Self P x m) {i : Nat} (hn : x.resume i = some x') : Turn P x m x' m := by
  obtain ⟨t, hi, rfl⟩ := Option.map_eq_some_iff.mp hn
  have hclose : x.world.channel.sentClose = true := by
    cases hsent : x.world.channel.sentClose with
    | false =>
      rw [h.idle hsent] at hi
      cases hi
    | true => rfl
  have htotal := total_eraseIdx (f := Task.rank) hi
  have hclosing := h.closing
  obtain ⟨p, hp, rfl | rfl⟩ := h.closing.behind t (List.mem_of_getElem? hi)
  · have hsame : { x.world.channel with sentClose := true } = x.world.channel := by
      rw [← hclose]
    rw [Channel.resume, hsame]
    cases hd : m.down with
    | false =>
      rw [hd] at hclosing
      rw [shift_parks hclosing.closed hclosing.queue]
      refine .quiet ?_ rfl rfl rfl rfl rfl (fun _ hb => hb) ?_
      · obtain ⟨unread, held, hserv, hlimit⟩ := h.serving hd
        refine { h with
          closing := hd ▸ hclosing.wait hi hp
          idle := fun hopen => ?_
          serving := fun _ => ⟨unread, held, hserv.channel rfl rfl rfl, hlimit⟩ }
        rw [show x.world.channel.sentClose = false from hopen] at hclose
        cases hclose
      · simp only [Part.rank, Party.enter, List.foldl_nil, hd, parked, List.length_append]
        simp [Task.rank] at htotal ⊢
        omega
    | true =>
      rw [hd] at hclosing
      rw [shift_closed hclosing.closed]
      refine .quiet ?_ rfl rfl rfl rfl rfl (fun _ hb => hb) ?_
      · refine { h with
          closing := hd ▸ hclosing.pass hi hp
          idle := fun hopen => ?_
          serving := fun hd' => ?_ }
        · rw [show x.world.channel.sentClose = false from hopen] at hclose
          cases hclose
        · rw [hd] at hd'
          cases hd'
      · simp only [Part.rank, Party.enter, Party.perform, List.foldl_cons, List.foldl_nil, hd, parked]
        simp [Task.rank, Waiter.task] at htotal ⊢
        omega
  · rw [Channel.resume, Party.enter]
    dsimp only [List.foldl_cons, List.foldl_nil, Party.perform]
    rw [if_neg hp]
    refine .quiet ?_ rfl rfl rfl rfl rfl (fun _ hb => hb) ?_
    · refine { h with
        closing := hclosing.settle hi
        idle := fun hopen => ?_ }
      rw [show x.world.channel.sentClose = false from hopen] at hclose
      cases hclose
    · simp only [Part.rank]
      simp [Task.rank] at htotal ⊢
      omega

/-! ### The read loop -/

theorem Self.readLoop (h : Self P x m) {w : World (Json N) Waiter}
    (hn : x.world.resume eng.jsonCodec = some w) : Turn P x m { x with world := w } m := by
  have hk := resume_kept hn
  obtain ⟨hless, hroom⟩ := resume_rank hn h.count
  obtain ⟨readBuf, readers, hchannel⟩ := hk.channel
  have hstanding := h.standing
  rw [← hk.calls] at hstanding
  have hrank : P.rank { x with world := w } m < P.rank x m := by
    simp only [Part.rank, hchannel]
    omega
  have hserving : m.down = false → ∃ unread held,
      Serving eng.jsonCodec (decoded P.lines) w unread held ∧ w.fc.readLimit = P.limit := by
    intro hd
    obtain ⟨unread, held, hserv, hlimit⟩ := h.serving hd
    obtain ⟨unread', held', hserv', -, hlimit', -⟩ := hserv.resume P.framable h.cut_nil (.inr (.inl rfl)) hn
    exact ⟨unread', held', hserv', hlimit'.trans hlimit⟩
  have hclose : w.channel.sentClose = x.world.channel.sentClose := by rw [hchannel]
  have hready : w.channel.ready = x.world.channel.ready := by rw [hchannel]
  refine .quiet ?_ rfl hclose hk.arrived rfl rfl (fun _ hb => hb) hrank
  refine { h with
    standing := hstanding, answered := h.answered.trans hk.resolved, cut := hk.arrived ▸ h.cut
    sentEOF := by rw [hchannel]; exact h.sentEOF
    sentClose := hclose.trans h.sentClose
    closing := hready ▸ h.closing
    idle := hclose ▸ h.idle
    payload := by rw [hchannel]; exact h.payload
    window := by rw [hchannel, hk.arrived]; exact h.window
    serving := hserving, emptied := fun hd => ?_, count := ?_ }
  · rw [hk.shut (h.emptied hd)]
    exact h.emptied hd
  · cases hd : m.down with
    | false =>
      obtain ⟨unread, held, hserv, -⟩ := hserving hd
      exact hserv.room (hk.arrived ▸ h.cut)
    | true => exact hroom (h.emptied hd)

/-! ### Messages that come in -/

/-- A data message is taken. -/
theorem Self.data (h : Self P x m) (hd : m.down = false) {id : Nat} {data : List UInt8}
    (hfits : data.length ≤ channelMaxPacket)
    (hcut : x.world.arrived ++ data <+: frames eng.jsonCodec (decoded P.lines)) :
    ∃ x', x.handle (.data id data.length data) = some x' ∧ Self P x' m ∧ x'.out = x.out ∧
      x'.world.channel.sentClose = x.world.channel.sentClose ∧
      x'.world.arrived = x.world.arrived ++ data ∧ P.rank x' m = P.rank x m := by
  have hwindow := h.window
  have hlen := hcut.length_le
  have hshort := P.short
  rw [List.length_append] at hlen
  obtain ⟨w, hw, hfed⟩ := arrive_fed (w := x.world) (h.payload.symm ▸ hfits)
    (by omega : data.length ≤ x.world.channel.myWindow)
  obtain ⟨unread, held, hserv, hlimit⟩ := h.serving hd
  obtain ⟨unread', held', hserv', harrived, hlimit'⟩ := hserv.arrive hw
  obtain ⟨readBuf, readers, hchannel⟩ := hfed.channel
  have hclose : w.channel.sentClose = x.world.channel.sentClose := by rw [hchannel]
  have hready : w.channel.ready = x.world.channel.ready := by rw [hchannel]
  refine ⟨{ x with world := w }, ?_, ?_, rfl, hclose, harrived, ?_⟩
  · rw [Party.handle, if_neg (by simp [h.removed, hd])]
    exact congrArg (Option.map fun world => { x with world }) hw
  · refine { h with
      standing := hfed.calls ▸ h.standing
      answered := hfed.resolved ▸ h.answered
      cut := harrived ▸ hcut
      sentEOF := by rw [hchannel]; exact h.sentEOF
      sentClose := hclose.trans h.sentClose
      closing := hready ▸ h.closing
      idle := hclose ▸ h.idle
      payload := by rw [hchannel]; exact h.payload
      window := ?_
      serving := fun _ => ⟨unread', held', hserv', hlimit'.trans hlimit⟩
      emptied := fun hd' => ?_
      count := hserv'.room (harrived ▸ hcut) }
    · rw [hchannel, harrived, List.length_append]
      show x.world.channel.myWindow - data.length + (x.world.arrived.length + data.length) = _
      omega
    · rw [hd] at hd'
      cases hd'
  · simp only [Part.rank, hready, hclose, hfed.count, hfed.rank]

theorem Standing.hear {stand : Stand} {n : Nat} (h : Standing stand m n) :
    Standing stand { m with heard := true } n := by
  cases h with
  | ready hnot => exact .ready hnot
  | decoding hnot => exact .decoding hnot
  | closing => exact .closing
  | closed => exact .closed

/-- A CloseMessage calls `close`: it is answered by another, or the second event of the two. -/
theorem Self.hear (h : Self P x m) (hheard : m.heard = false) (id : Nat) :
    ∃ x', x.handle (.close id) = some x' ∧ Self P x' { m with heard := true } ∧
      x'.world.arrived = x.world.arrived ∧ x'.world.channel.sentClose = true ∧
      P.rank x' { m with heard := true } ≤ P.rank x m ∧
      if x.world.channel.sentClose then x'.out = x.out
      else x'.out = x.out ++ [.close x.world.channel.remoteId] := by
  have hd : m.down = false := by rw [Mark.down, hheard, Bool.and_false]
  have hown : x.world.channel.sentClose = m.own := by rw [h.sentClose, hheard, Bool.or_false]
  have hdown : Mark.down { m with heard := true } = m.own := Bool.and_true _
  have hsent' : (true : Bool) = (m.own || true) := (Bool.or_true _).symm
  have hhandle : (x.world.channel.close 2).error = none →
      x.handle (.close id) = some (x.enter (x.world.channel.close 2)) := by
    intro herror
    have hclose : (x.world.channel.handle 2 (.close id)).error = none := herror
    unfold Party.handle
    rw [if_neg (by simp [h.removed, hd])]
    dsimp only
    rw [hclose]
    rfl
  cases hsent : x.world.channel.sentClose with
  | false =>
    have hdown := hdown.trans (hown.symm.trans hsent)
    refine ⟨_, hhandle (by rw [close_first hsent]), ?_⟩
    rw [close_first hsent]
    obtain ⟨unread, held, hserv, hlimit⟩ := h.serving hd
    have hclosing := h.closing
    refine ⟨{ h with
      standing := h.standing.hear
      sentClose := hsent'
      removed := (h.removed.trans hd).trans hdown.symm
      closing := ?_
      idle := fun hopen => by cases hopen
      serving := fun _ => ⟨unread, held, hserv.channel rfl rfl rfl, hlimit⟩
      emptied := fun hd' => ?_ }, rfl, rfl, ?_, rfl⟩
    · rw [hdown]
      rw [hd] at hclosing
      refine ⟨hclosing.queue, hclosing.closed, fun t ht => ?_, hclosing.waiting, fun hst => ?_⟩
      · rcases List.mem_append.mp ht with ht | ht
        · exact hclosing.behind t ht
        · exact ⟨2, by decide, .inl (List.mem_singleton.mp ht)⟩
      · rcases hclosing.due hst with hmem | hmem | hmem | hmem
        · exact .inl hmem
        · exact .inr (.inl (List.mem_append_left _ hmem))
        · exact .inr (.inr (.inl (List.mem_append_left _ hmem)))
        · exact .inr (.inr (.inr hmem))
    · rw [hdown] at hd'
      cases hd'
    · simp only [Part.rank, Party.enter, List.foldl_cons, List.foldl_nil, Party.perform, hsent, unsent,
        hd, hdown, parked, List.length_append, total_append]
      simp [Task.rank]
      omega
  | true =>
    have hown := hown.symm.trans hsent
    obtain ⟨hself, hout, hclose, harrived, hrank⟩ := h.shut { m with heard := true } 2 x.stand hsent hd
      (hdown.trans hown) (by decide) rfl rfl hown h.standing.hear .inl
    have hstand : { x.enter (x.world.channel.close 2) with stand := x.stand } =
        x.enter (x.world.channel.close 2) := by
      rw [← enter_stand (x := x) (x.world.channel.close 2)]
    rw [hstand] at hself hrank
    exact ⟨_, hhandle (by rw [close_second hsent]), hself, harrived, hclose, Nat.le_of_add_le_add_right hrank,
      hout⟩

/-! ### An end at rest -/

/-- The values up to here have been read. -/
theorem Self.read (h : Self P x m) (hd : m.down = false) {n : Nat} (hn : n ≤ x.world.resolved.length) :
    frames eng.jsonCodec ((decoded P.lines).take n) <+: x.world.arrived := by
  obtain ⟨unread, held, hserv, -⟩ := h.serving hd
  have hhanded := congrArg List.length hserv.handed
  rw [List.length_append, List.length_map, List.length_take] at hhanded
  rw [hserv.taken]
  exact (frames_take_mono _ _ (by omega)).trans (List.prefix_append _ _)

/-- An end that has but to close its channel has all that was meant for it. -/
theorem Self.arrived_all (h : Self P x m) (hd : m.down = false) (hall : m.todo = [.close]) :
    x.world.arrived = frames eng.jsonCodec (decoded P.lines) := by
  have hlines := h.lines
  rw [hall] at hlines
  have hdecoded : decoded P.lines = decoded m.done := by simp [hlines]
  have hread := h.read hd h.answered
  rw [← hdecoded, List.take_length] at hread
  exact h.cut.eq_of_length_le hread.length_le

/-- Where all has come in, every value that is awaited is there. -/
theorem Self.served (h : Self P x m) (hd : m.down = false)
    (hall : x.world.arrived = frames eng.jsonCodec (decoded P.lines))
    (hstop : x.world.resume eng.jsonCodec = none) {k : Nat} {v : Json N} (hk : k < x.world.calls)
    (hv : (decoded P.lines)[k]? = some v) : (k, v) ∈ x.world.resolved := by
  obtain ⟨unread, held, hserv, hlimit⟩ := h.serving hd
  have hwhole : Rpc.served (decoded P.lines) x.world.fc.readLimit = decoded P.lines := hlimit ▸ P.whole
  have hcomplete := hserv.complete P.framable h.cut_nil (.inl rfl)
    (by rw [hwhole, hall]) hstop
  exact hcomplete.answered k v hk (by rw [hwhole]; exact hv)

/-- Behind its `close` an end has called it. -/
theorem Standing.own {stand : Stand} {n : Nat} (h : Standing stand m n) (hmem : Line.close ∈ m.done) :
    m.own = true := by
  cases h with
  | ready hnot => exact absurd hmem hnot
  | decoding hnot => exact absurd hmem hnot
  | closing => rfl
  | closed => rfl

/-- What a function waits for that cannot go on. -/
inductive Stuck (x : Party N ρ) (m : Mark N) : Prop
  | returned (h : m.todo = [])
  | decoding {v : Json N} {todo : List (Line N)} (htodo : m.todo = .decode v :: todo)
      (hnot : ∀ a ∈ x.world.resolved, a.1 ≠ (decoded m.done).length)
      (hcalls : (decoded m.done).length < x.world.calls) (hown : m.own = false)
  | closing (htodo : m.todo = [.close]) (hown : m.own = true) (hd : m.down = false)

theorem Self.stuck (h : Self P x m) (hstop : x.goOn = none) (htasks : x.tasks = []) : Stuck x m := by
  have hf := h.follows
  have hs := h.standing
  rw [Party.goOn] at hstop
  generalize hprog : x.prog = prog at hf hstop
  generalize hstand : x.stand = stand at hs hstop
  generalize hcalls : x.world.calls = calls at hs
  obtain ⟨done, todo, own, heard⟩ := m
  dsimp only at hf
  cases hs with
  | ready =>
    cases hf with
    | ret => exact .returned rfl
    | write => cases hstop
    | decode => cases hstop
    | close => cases hstop
  | decoding =>
    cases hf with
    | decode =>
      have hnone := List.find?_eq_none.mp (Option.map_eq_none_iff.mp hstop)
      refine .decoding rfl (fun a ha => by simpa using hnone a ha) ?_ rfl
      rw [hcalls]
      exact Nat.lt_succ_self _
  | closing =>
    cases hf with
    | close =>
      have hdue := h.closing.due hstand
      rw [htasks] at hdue
      dsimp only at hstop
      split at hstop
      · cases hstop
      · next hnot =>
        rcases hdue with hmem | hmem | hmem | ⟨hd, -⟩
        · exact absurd hmem hnot
        · cases hmem
        · cases hmem
        · exact .closing rfl rfl hd
  | closed => exact .returned rfl

end Turns

end Qtalk.Js.Rpc
