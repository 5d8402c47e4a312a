import Qtalk.Js.Turns
import Mathlib.Logic.Function.Basic

/-!
# A call between two peers

Both ends of a channel with the messages between them. The values that an end awaits are those
that the other end writes, so whatever the order of the steps, the conversation comes to its end,
and there the call has the answer to it (`call_completes`).
-/

namespace Qtalk.Js.Rpc
open Qtalk.Lib

variable {N : Type}

/-- The end of the channel that opened it, and the one that accepted it. -/
inductive End where
  | caller
  | responder
  deriving DecidableEq, Repr

def End.other : End → End
  | .caller => .responder
  | .responder => .caller

@[simp] theorem End.other_other (e : End) : e.other.other = e := by
  cases e <;> rfl

theorem End.other_ne (e : End) : e.other ≠ e := by
  cases e <;> decide

theorem End.forall_of {p : End → Prop} (e : End) (h : p e) (ho : p e.other) : ∀ e', p e' := by
  intro e'
  cases e <;> cases e' <;> assumption

/-- Both ends; `ρ` is what the function at each returns. -/
abbrev Conversation (N : Type) (ρ : End → Type) := (e : End) → Party N (ρ e)

namespace Conversation

inductive Act where
  /-- the function at an end goes on -/
  | goOn (e : End)
  /-- its read loop goes on -/
  | readLoop (e : End)
  /-- the `i`-th task goes on -/
  | resume (e : End) (i : Nat)
  /-- the next message comes in -/
  | deliver (e : End)
  deriving DecidableEq, Repr

variable {ρ : End → Type}

def next (eng : Engine N) (s : Conversation N ρ) : Act → Option (Conversation N ρ)
  | .goOn e => (s e).goOn.map (Function.update s e)
  | .readLoop e =>
    ((s e).world.resume eng.jsonCodec).map fun world => Function.update s e { s e with world }
  | .resume e i => ((s e).resume i).map (Function.update s e)
  | .deliver e =>
    match (s e.other).out with
    | [] => none
    | m :: out =>
      ((s e).handle m).map (Function.update (Function.update s e.other { s e.other with out }) e)

/-- Nothing can go on. -/
def AtRest (eng : Engine N) (s : Conversation N ρ) : Prop := ∀ a, s.next eng a = none

end Conversation

/-! ## What is on the way -/

def dataMessage (d : Nat × List UInt8) : Message := .data d.1 d.2.length d.2

/-- What is on its way to an end where `arrived` came in, from one that has written `sent`, has
called `send` with a CloseMessage or not, and the other end has handled that or not. -/
inductive Wire (arrived sent : List UInt8) : List Message → Bool → Bool → Prop
  | sending {ds : List (Nat × List UInt8)} (hcut : arrived ++ ds.flatMap Prod.snd = sent)
      (hfits : ∀ d ∈ ds, d.2.length ≤ channelMaxPacket) : Wire arrived sent (ds.map dataMessage) false false
  | closing {ds : List (Nat × List UInt8)} {id : Nat} (hcut : arrived ++ ds.flatMap Prod.snd = sent)
      (hfits : ∀ d ∈ ds, d.2.length ≤ channelMaxPacket) :
      Wire arrived sent (ds.map dataMessage ++ [.close id]) true false
  | closed (hall : arrived = sent) : Wire arrived sent [] true true

section Wires

variable {arrived sent : List UInt8} {out : List Message} {closed heard : Bool}

theorem Wire.write (h : Wire arrived sent out false heard) {buffer : List UInt8}
    (hfits : buffer.length ≤ channelMaxPacket) (id : Nat) :
    Wire arrived (sent ++ buffer) (out ++ [.data id buffer.length buffer]) false heard := by
  cases h with
  | @sending ds hcut hall =>
    have hmap : ds.map dataMessage ++ [.data id buffer.length buffer] =
        (ds ++ [(id, buffer)]).map dataMessage := by
      rw [List.map_append]
      rfl
    rw [hmap]
    refine .sending ?_ fun d hd => ?_
    · rw [List.flatMap_append, List.flatMap_singleton, ← List.append_assoc, hcut]
    · rcases List.mem_append.mp hd with hd | hd
      · exact hall d hd
      · rw [List.mem_singleton.mp hd]
        exact hfits

theorem Wire.close (h : Wire arrived sent out false heard) (id : Nat) :
    Wire arrived sent (out ++ [.close id]) true heard := by
  cases h with
  | sending hcut hall => exact .closing hcut hall

/-- What has come in was written. -/
theorem Wire.prefix (h : Wire arrived sent out closed heard) : arrived <+: sent := by
  cases h with
  | sending hcut _ => exact ⟨_, hcut⟩
  | closing hcut _ => exact ⟨_, hcut⟩
  | closed hall => rw [hall]

/-- Nothing is on its way. -/
theorem Wire.empty (h : Wire arrived sent [] closed heard) : arrived = sent ∧ heard = closed := by
  generalize hout : ([] : List Message) = out at h
  cases h with
  | @sending ds hcut _ =>
    have hds : ds = [] := List.map_eq_nil_iff.mp hout.symm
    rw [hds, List.flatMap_nil, List.append_nil] at hcut
    exact ⟨hcut, rfl⟩
  | closing _ _ => exact absurd hout.symm (by simp)
  | closed hall => exact ⟨hall, rfl⟩

/-- The next message: data, or behind all data the CloseMessage. -/
theorem Wire.next {m : Message} (h : Wire arrived sent (m :: out) closed heard) :
    heard = false ∧
      ((∃ id data, m = .data id data.length data ∧ data.length ≤ channelMaxPacket ∧
          arrived ++ data <+: sent ∧ Wire (arrived ++ data) sent out closed false) ∨
        ∃ id, m = .close id ∧ closed = true ∧ Wire arrived sent out true true) := by
  generalize hout : m :: out = messages at h
  cases h with
  | @sending ds hcut hfits =>
    refine ⟨rfl, ?_⟩
    cases ds with
    | nil => cases hout
    | cons d ds =>
      cases hout
      rw [List.flatMap_cons, ← List.append_assoc] at hcut
      exact .inl ⟨d.1, d.2, rfl, hfits d List.mem_cons_self, ⟨_, hcut⟩,
        .sending hcut fun d' hd' => hfits d' (List.mem_cons_of_mem _ hd')⟩
  | @closing ds id hcut hfits =>
    refine ⟨rfl, ?_⟩
    cases ds with
    | nil =>
      cases hout
      rw [List.flatMap_nil, List.append_nil] at hcut
      exact .inr ⟨id, rfl, rfl, .closed hcut⟩
    | cons d ds =>
      cases hout
      rw [List.flatMap_cons, ← List.append_assoc] at hcut
      exact .inl ⟨d.1, d.2, rfl, hfits d List.mem_cons_self, ⟨_, hcut⟩,
        .closing hcut fun d' hd' => hfits d' (List.mem_cons_of_mem _ hd')⟩
  | closed _ => cases hout

end Wires

/-! ## Both ends -/

variable {ρ : End → Type} {eng : Engine N}

/-- The lines of the two ends fit: what one writes are the values that the other awaits, the caller
writes before it awaits anything, and both close the channel or neither. -/
structure Talk (P : (e : End) → Part eng (ρ e)) : Prop where
  fits : ∀ e, written (P e.other).lines = frames eng.jsonCodec (decoded (P e).lines)
  first : ∀ done v todo, (P .caller).lines = done ++ .decode v :: todo →
    written done = written (P .caller).lines
  closes : ∀ e, Line.close ∈ (P e).lines ↔ Line.close ∈ (P e.other).lines

/-- Where both ends are. -/
structure Inv (P : (e : End) → Part eng (ρ e)) (s : Conversation N ρ) (f : End → Mark N) : Prop where
  self : ∀ e, Self (P e) (s e) (f e)
  wire : ∀ e, Wire (s e.other).world.arrived (written (f e).done) (s e).out
    (s e).world.channel.sentClose (f e.other).heard
  /-- the channel is closed behind all that is written -/
  silent : ∀ e, (s e).world.channel.sentClose = true → ∀ e' buffer, Line.write buffer ∉ (f e').todo
  asked : ∀ e, (s e).world.channel.sentClose = true → Line.close ∈ (P e).lines

/-- What is left to do at both ends. -/
def weight (P : (e : End) → Part eng (ρ e)) (s : Conversation N ρ) (f : End → Mark N) : Nat :=
  (P .caller).rank (s .caller) (f .caller) + (P .responder).rank (s .responder) (f .responder)

theorem weight_eq (P : (e : End) → Part eng (ρ e)) (s : Conversation N ρ) (f : End → Mark N) (e : End) :
    weight P s f = (P e).rank (s e) (f e) + (P e.other).rank (s e.other) (f e.other) := by
  cases e with
  | caller => rfl
  | responder => exact Nat.add_comm _ _

section Steps

variable {P : (e : End) → Part eng (ρ e)} {s s' : Conversation N ρ} {f : End → Mark N}

/-- Where all of an end's writes have come in that are awaited, it has no more. -/
theorem Inv.no_writes (h : Inv P s f) {e : End}
    (hall : written (f e).done = written (P e).lines) {buffer : List UInt8} :
    Line.write buffer ∉ (f e).todo := by
  intro hmem
  have hlines := (h.self e).lines
  rw [hlines, written_append, List.self_eq_append_right] at hall
  have hbuffer : buffer = [] := List.flatMap_eq_nil_iff.mp hall _ hmem
  exact ((P e).fits buffer (hlines ▸ List.mem_append_right _ hmem)).1 hbuffer

/-- At the first `close` all is written at both ends. -/
theorem Inv.written_all (h : Inv P s f) (hT : Talk P) {e : End} (hopen : (s e).world.channel.sentClose = false)
    (htodo : (f e).todo = [.close]) (e' : End) (buffer : List UInt8) : Line.write buffer ∉ (f e').todo := by
  have hself := h.self e
  have hsent := hself.sentClose
  rw [hopen] at hsent
  have hd : (f e).down = false := by
    rw [Mark.down, (Bool.or_eq_false_iff.mp hsent.symm).1, Bool.false_and]
  have hall := hself.arrived_all hd htodo
  rw [← hT.fits e] at hall
  have hwire := h.wire e.other
  rw [End.other_other, hall] at hwire
  revert e'
  refine End.forall_of e ?_ ?_
  · simp [htodo]
  · refine h.no_writes ?_
    have hlines := congrArg written (h.self e.other).lines
    rw [written_append] at hlines
    exact List.IsPrefix.eq_of_length_le ⟨_, hlines.symm⟩ hwire.prefix.length_le

/-- An end takes a turn. -/
theorem Inv.turn (h : Inv P s f) (hT : Talk P) {e : End} {x' : Party N (ρ e)} {m' : Mark N}
    (ht : Turn (P e) (s e) (f e) x' m') :
    Inv P (Function.update s e x') (Function.update f e m') ∧
      weight P (Function.update s e x') (Function.update f e m') < weight P s f := by
  have hne := e.other_ne
  obtain ⟨hself, harrived, hheard, htodo, hrank⟩ := ht.after
  have hwire := h.wire e
  refine ⟨⟨End.forall_of e ?_ ?_, End.forall_of e ?_ ?_, fun e1 hsent => ?_, End.forall_of e ?_ ?_⟩, ?_⟩
  · simpa using hself
  · simpa [hne] using h.self e.other
  · simp only [Function.update_self, Function.update_of_ne hne]
    cases ht with
    | quiet _ hout hclose _ _ hwritten _ _ => rw [hout, hclose, hwritten]; exact hwire
    | wrote _ hout hopen hclose _ _ htodo hwritten _ =>
      rw [hout, hclose, hwritten, hopen]
      rw [hopen] at hwire
      exact hwire.write ((P e).fits _ ((h.self e).lines ▸ List.mem_append_right _ (by simp [htodo]))).2 _
    | closed _ hout hopen hclose _ _ hdone _ _ _ =>
      rw [hout, hclose, hdone]
      rw [hopen] at hwire
      exact hwire.close _
  · have hwire := h.wire e.other
    rw [End.other_other] at hwire
    rw [End.other_other, Function.update_self, Function.update_self, Function.update_of_ne hne,
      Function.update_of_ne hne, harrived, hheard]
    exact hwire
  · have hless : ∀ e' buffer, Line.write buffer ∈ (Function.update f e m' e').todo →
        Line.write buffer ∈ (f e').todo := by
      refine End.forall_of e ?_ ?_
      · simpa using htodo
      · simp [hne]
    suffices hnone : ∀ e' buffer, Line.write buffer ∉ (f e').todo from
      fun e' buffer hmem => hnone e' buffer (hless e' buffer hmem)
    have same : x'.world.channel.sentClose = (s e).world.channel.sentClose →
        ∀ e' buffer, Line.write buffer ∉ (f e').todo := by
      intro hclose
      refine h.silent e1 ?_
      revert e1
      refine End.forall_of e ?_ ?_
      · simp [hclose]
      · simp [hne]
    cases ht with
    | quiet _ _ hclose _ _ _ _ _ => exact same hclose
    | wrote _ _ _ hclose _ _ _ _ _ => exact same hclose
    | closed _ _ hopen _ _ _ _ _ hall _ => exact h.written_all hT hopen hall
  · rw [Function.update_self]
    cases ht with
    | quiet _ _ hclose _ _ _ _ _ => exact hclose ▸ h.asked e
    | wrote _ _ _ hclose _ _ _ _ _ => exact hclose ▸ h.asked e
    | closed _ _ _ _ _ _ _ _ hall _ =>
      intro _
      rw [(h.self e).lines, hall]
      exact List.mem_append_right _ (List.mem_singleton_self _)
  · rw [Function.update_of_ne hne]
    exact h.asked e.other
  · rw [weight_eq _ _ _ e, weight_eq _ _ _ e]
    simp only [Function.update_self, Function.update_of_ne hne]
    omega

theorem Self.sent {ρ : Type} {P : Part eng ρ} {x : Party N ρ} {m : Mark N} (h : Self P x m)
    (out : List Message) : Self P { x with out } m :=
  { h with }

/-- A message has come in, and the end has done with it. -/
theorem Inv.took (h : Inv P s f) (hT : Talk P) {e : End} {m : Message} {out : List Message}
    (hout : (s e.other).out = m :: out) {x' : Party N (ρ e)} {m' : Mark N} (hself : Self (P e) x' m')
    (hdone : m'.done = (f e).done) (htodo : m'.todo = (f e).todo)
    (hin : Wire x'.world.arrived (written (f e.other).done) out (s e.other).world.channel.sentClose m'.heard)
    (hback : Wire (s e.other).world.arrived (written (f e).done) x'.out x'.world.channel.sentClose
      (f e.other).heard)
    (hsent : x'.world.channel.sentClose = true →
      (s e).world.channel.sentClose = true ∨ (s e.other).world.channel.sentClose = true)
    (hrank : (P e).rank x' m' ≤ (P e).rank (s e) (f e)) :
    Inv P (Function.update (Function.update s e.other { s e.other with out }) e x')
        (Function.update f e m') ∧
      weight P (Function.update (Function.update s e.other { s e.other with out }) e x')
        (Function.update f e m') < weight P s f := by
  have hne := e.other_ne
  have hclose : ∀ e1, (Function.update (Function.update s e.other { s e.other with out }) e x'
      e1).world.channel.sentClose = true → ∃ e2, (s e2).world.channel.sentClose = true := by
    refine End.forall_of e ?_ ?_
    · rw [Function.update_self]
      intro h'
      rcases hsent h' with h' | h'
      · exact ⟨_, h'⟩
      · exact ⟨_, h'⟩
    · rw [Function.update_of_ne hne, Function.update_self]
      exact fun h' => ⟨_, h'⟩
  have hasked : ∀ e1, (s e1).world.channel.sentClose = true → ∀ e2, Line.close ∈ (P e2).lines := by
    intro e1 h1
    exact End.forall_of e1 (h.asked e1 h1) ((hT.closes e1).mp (h.asked e1 h1))
  refine ⟨⟨End.forall_of e ?_ ?_, End.forall_of e ?_ ?_, fun e1 h1 => ?_, fun e1 h1 => ?_⟩, ?_⟩
  · rw [Function.update_self, Function.update_self]
    exact hself
  · rw [Function.update_of_ne hne, Function.update_of_ne hne, Function.update_self]
    exact (h.self e.other).sent out
  · simp only [Function.update_self, Function.update_of_ne hne]
    rw [hdone]
    exact hback
  · rw [End.other_other, Function.update_self, Function.update_self, Function.update_of_ne hne,
      Function.update_of_ne hne, Function.update_self]
    exact hin
  · obtain ⟨e2, h2⟩ := hclose e1 h1
    have hsilent := h.silent e2 h2
    refine End.forall_of e ?_ ?_
    · rw [Function.update_self, htodo]
      exact hsilent e
    · rw [Function.update_of_ne hne]
      exact hsilent e.other
  · obtain ⟨e2, h2⟩ := hclose e1 h1
    exact hasked e2 h2 e1
  · rw [weight_eq _ _ _ e, weight_eq _ _ _ e]
    simp only [Function.update_self, Function.update_of_ne hne]
    have hless : (P e.other).rank { s e.other with out } (f e.other) <
        (P e.other).rank (s e.other) (f e.other) := by
      simp only [Part.rank, hout, List.length_cons]
      omega
    exact Nat.add_lt_add_of_le_of_lt hrank hless

/-- No message is refused. -/
theorem Inv.deliver (h : Inv P s f) (hT : Talk P) {e : End} {m : Message} {out : List Message}
    (hout : (s e.other).out = m :: out) :
    ∃ s' f', s.next eng (.deliver e) = some s' ∧ Inv P s' f' ∧ weight P s' f' < weight P s f := by
  have hself := h.self e
  have hwire := h.wire e.other
  have hback := h.wire e
  rw [End.other_other, hout] at hwire
  have hnext : ∀ {x'}, (s e).handle m = some x' → s.next eng (.deliver e) =
      some (Function.update (Function.update s e.other { s e.other with out }) e x') := by
    intro x' hx
    rw [Conversation.next, hout]
    exact congrArg (Option.map _) hx
  have hframes : written (f e.other).done <+: frames eng.jsonCodec (decoded (P e).lines) := by
    rw [← hT.fits e, (h.self e.other).lines, written_append]
    exact List.prefix_append _ _
  obtain ⟨hheard, ⟨id, data, rfl, hfits, hcut, hrest⟩ | ⟨id, rfl, hclosed, hrest⟩⟩ := hwire.next
  · have hd : (f e).down = false := by rw [Mark.down, hheard, Bool.and_false]
    obtain ⟨x', hx, hself', hout', hclose, harrived, hrank⟩ := hself.data hd hfits (hcut.trans hframes)
    have hinv := h.took hT hout hself' rfl rfl (by rw [harrived, hheard]; exact hrest)
      (by rw [hout', hclose]; exact hback) (fun h' => .inl (hclose ▸ h')) hrank.le
    exact ⟨_, _, hnext hx, hinv⟩
  · obtain ⟨x', hx, hself', harrived, hclose, hrank, hout'⟩ := hself.hear hheard id
    have hback' : Wire (s e.other).world.arrived (written (f e).done) x'.out
        x'.world.channel.sentClose (f e.other).heard := by
      rw [hclose]
      cases hsent : (s e).world.channel.sentClose with
      | false =>
        rw [hsent] at hout' hback
        rw [if_neg (by simp)] at hout'
        rw [hout']
        exact hback.close _
      | true =>
        rw [hsent] at hout' hback
        rw [if_pos rfl] at hout'
        rw [hout']
        exact hback
    have hinv := h.took hT hout hself' rfl rfl (by rw [harrived, hclosed]; exact hrest) hback'
      (fun _ => .inr hclosed) hrank
    exact ⟨_, _, hnext hx, hinv⟩

/-- Every step keeps the invariant, and takes something off what is left to do. -/
theorem Inv.step (h : Inv P s f) (hT : Talk P) {a : Conversation.Act} (hn : s.next eng a = some s') :
    ∃ f', Inv P s' f' ∧ weight P s' f' < weight P s f := by
  cases a with
  | goOn e =>
    obtain ⟨x', hx, rfl⟩ := Option.map_eq_some_iff.mp hn
    have hopen : ∀ buffer, .write buffer ∈ (f e).todo → (s e).world.channel.sentClose = false := by
      intro buffer hmem
      by_contra hsent
      exact h.silent e (by simpa using hsent) e buffer hmem
    obtain ⟨m', ht⟩ := (h.self e).goOn hopen hx
    exact ⟨_, h.turn hT ht⟩
  | readLoop e =>
    obtain ⟨w, hw, rfl⟩ := Option.map_eq_some_iff.mp hn
    have hinv := h.turn hT ((h.self e).readLoop hw)
    exact ⟨_, hinv⟩
  | resume e i =>
    obtain ⟨x', hx, rfl⟩ := Option.map_eq_some_iff.mp hn
    exact ⟨_, h.turn hT ((h.self e).resume hx)⟩
  | deliver e =>
    cases hout : (s e.other).out with
    | nil =>
      rw [Conversation.next, hout] at hn
      cases hn
    | cons m out =>
      obtain ⟨s1, f', hn', hinv⟩ := h.deliver hT hout
      rw [hn] at hn'
      cases hn'
      exact ⟨f', hinv⟩

/-! ### At rest -/

/-- Where nothing can go on, nothing is on its way, and all tasks and loops are through. -/
theorem Inv.still (h : Inv P s f) (hT : Talk P) (hrest : s.AtRest eng) (e : End) :
    (s e).out = [] ∧ (s e).tasks = [] ∧ (s e).goOn = none ∧ (s e).world.resume eng.jsonCodec = none := by
  refine ⟨?_, ?_, Option.map_eq_none_iff.mp (hrest (.goOn e)),
    Option.map_eq_none_iff.mp (hrest (.readLoop e))⟩
  · cases hout : (s e).out with
    | nil => rfl
    | cons m out =>
      obtain ⟨s', f', hn, -⟩ := h.deliver (e := e.other) hT (by rw [End.other_other]; exact hout)
      rw [hrest] at hn
      cases hn
  · have hnone : ((s e).tasks[0]?) = none :=
      Option.map_eq_none_iff.mp (Option.map_eq_none_iff.mp (hrest (.resume e 0)))
    exact List.length_eq_zero_iff.mp (Nat.le_zero.mp (List.getElem?_eq_none_iff.mp hnone))

/-- An end that awaits a value has been sent less than that. -/
theorem Inv.awaiting (h : Inv P s f) (hT : Talk P) (hrest : s.AtRest eng) {e : End} {v : Json N}
    {todo : List (Line N)} (htodo : (f e).todo = .decode v :: todo)
    (hnot : ∀ a ∈ (s e).world.resolved, a.1 ≠ (decoded (f e).done).length)
    (hcalls : (decoded (f e).done).length < (s e).world.calls) (hown : (f e).own = false) :
    written (f e.other).done ≠ written (P e.other).lines := by
  intro hall
  obtain ⟨hout, -, -, -⟩ := h.still hT hrest e.other
  obtain ⟨-, -, -, hstop⟩ := h.still hT hrest e
  have hwire := h.wire e.other
  rw [End.other_other, hout, hall, hT.fits] at hwire
  have hd : (f e).down = false := by rw [Mark.down, hown, Bool.false_and]
  have hv : (decoded (P e).lines)[(decoded (f e).done).length]? = some v := by
    rw [(h.self e).lines, htodo]
    simp
  exact hnot _ ((h.self e).served hd hwire.empty.1 hstop hcalls hv) rfl

/-- Where an end has called `close`, both CloseMessages have been handled. -/
theorem Inv.heard (h : Inv P s f) (hT : Talk P) (hrest : s.AtRest eng) {e : End}
    (hsent : (s e).world.channel.sentClose = true) : (f e).heard = true ∧ (f e.other).heard = true := by
  have hother : ∀ e', (s e').world.channel.sentClose = true → (f e'.other).heard = true := by
    intro e' hsent
    have hwire := h.wire e'
    rw [(h.still hT hrest e').1] at hwire
    exact hwire.empty.2.trans hsent
  have hfirst := hother e hsent
  have hback : (s e.other).world.channel.sentClose = true := by
    rw [(h.self e.other).sentClose, hfirst, Bool.or_true]
  have hsecond := hother e.other hback
  rw [End.other_other] at hsecond
  exact ⟨hsecond, hfirst⟩

theorem Inv.stuck (h : Inv P s f) (hT : Talk P) (hrest : s.AtRest eng) (e : End) :
    (f e).todo = [] ∨ ∃ v todo, (f e).todo = .decode v :: todo ∧
      written (f e.other).done ≠ written (P e.other).lines := by
  obtain ⟨-, htasks, hstop, -⟩ := h.still hT hrest e
  cases (h.self e).stuck hstop htasks with
  | returned htodo => exact .inl htodo
  | decoding htodo hnot hcalls hown => exact .inr ⟨_, _, htodo, h.awaiting hT hrest htodo hnot hcalls hown⟩
  | closing htodo hown hd =>
    have hsent : (s e).world.channel.sentClose = true := by rw [(h.self e).sentClose, hown, Bool.true_or]
    rw [Mark.down, hown, (h.heard hT hrest hsent).1] at hd
    cases hd

/-- Both ends are through. -/
theorem Inv.through (h : Inv P s f) (hT : Talk P) (hrest : s.AtRest eng) (e : End) : (f e).todo = [] := by
  have all : ∀ e, (f e).todo = [] → written (f e).done = written (P e).lines := by
    intro e htodo
    rw [(h.self e).lines, htodo, List.append_nil]
  -- the caller has written all before it awaits anything, so the responder is not the one that waits
  have hcaller : written (f .caller).done = written (P .caller).lines := by
    rcases h.stuck hT hrest .caller with htodo | ⟨v, todo, htodo, -⟩
    · exact all _ htodo
    · exact hT.first _ _ _ (htodo ▸ (h.self .caller).lines)
  have hresponder : (f .responder).todo = [] := by
    rcases h.stuck hT hrest .responder with htodo | ⟨v, todo, -, hnot⟩
    · exact htodo
    · exact absurd hcaller hnot
  cases e with
  | caller =>
    rcases h.stuck hT hrest .caller with htodo | ⟨v, todo, -, hnot⟩
    · exact htodo
    · exact absurd (all _ hresponder) hnot
  | responder => exact hresponder

/-- Both functions have returned, and where they close the channel, both tables are rid of it. -/
theorem Inv.ended (h : Inv P s f) (hT : Talk P) (hrest : s.AtRest eng) (e : End) :
    (s e).prog = .ret (P e).result ∧ ((s e).world.channel.sentClose = true ↔ Line.close ∈ (P e).lines) ∧
      (s e).removed = (s e).world.channel.sentClose := by
  have htodo := h.through hT hrest
  have hself := h.self e
  have hf := hself.follows
  have hlines := hself.lines
  have hsentClose := hself.sentClose
  rw [htodo e] at hf
  rw [htodo e, List.append_nil] at hlines
  have hown : Line.close ∈ (P e).lines → (f e).own = true := by
    intro hmem
    exact hself.standing.own (hlines ▸ hmem)
  refine ⟨?_, ⟨h.asked e, fun hmem => ?_⟩, ?_⟩
  · generalize (s e).prog = prog at hf
    cases hf
    rfl
  · rw [hsentClose, hown hmem, Bool.true_or]
  · rw [hself.removed, Mark.down]
    cases hsent : (s e).world.channel.sentClose with
    | false =>
      rw [hsent] at hsentClose
      rw [(Bool.or_eq_false_iff.mp hsentClose.symm).1, Bool.false_and]
    | true => rw [hown (h.asked e hsent), (h.heard hT hrest hsent).1, Bool.and_self]

end Steps

/-! ## A call and its answer -/

/-- What goes through a frame in two messages that are taken. -/
structure Sendable (eng : Engine N) (j : Json N) : Prop where
  framable : Framable eng.jsonCodec j
  fits : (eng.jsonCodec.encode j).length ≤ channelMaxPacket

section Values

variable {eng : Engine N} {j : Json N}

theorem Sendable.of_passable {v : JsValue N} (hd : v.Distinct) (h : eng.Passable v) :
    Sendable eng (eng.json v) := by
  have hfits := Transfer.body_length h
  obtain ⟨text, htext, -⟩ := h
  exact ⟨eng.framable hd htext, hfits⟩

theorem writesOf_eq (eng : Engine N) (j : Json N) :
    writesOf eng j = [.write (prefixOf eng.jsonCodec j), .write (eng.jsonCodec.encode j)] := by
  rw [writesOf, Codec.writes]
  simp [setUint32, prefixOf]

@[simp] theorem decoded_writesOf (eng : Engine N) (j : Json N) : decoded (writesOf eng j) = [] := by
  rw [writesOf_eq]
  rfl

@[simp] theorem written_writesOf (eng : Engine N) (j : Json N) :
    written (writesOf eng j) = frame eng.jsonCodec j := by
  rw [writesOf_eq, frame_eq]
  simp

@[simp] theorem decoded_closing (hijacked : Bool) : decoded (closing hijacked : List (Line N)) = [] := by
  cases hijacked <;> rfl

@[simp] theorem written_closing (hijacked : Bool) : written (closing hijacked : List (Line N)) = [] := by
  cases hijacked <;> rfl

theorem close_not_writesOf : Line.close ∉ writesOf eng j := by
  rw [writesOf_eq]
  simp

theorem close_closing {hijacked : Bool} : (Line.close : Line N) ∈ closing hijacked ↔ hijacked = false := by
  cases hijacked <;> simp [closing]

theorem Sendable.fits_writes (h : Sendable eng j) {buffer : List UInt8}
    (hmem : Line.write buffer ∈ writesOf eng j) : buffer ≠ [] ∧ buffer.length ≤ channelMaxPacket := by
  rw [writesOf_eq] at hmem
  simp only [List.mem_cons, Line.write.injEq, List.not_mem_nil, or_false] at hmem
  rcases hmem with rfl | rfl
  · exact ⟨List.ne_nil_of_length_eq_add_one (prefixOf_length _ _), by
      rw [prefixOf_length]
      decide⟩
  · exact ⟨h.framable.some_bytes, h.fits⟩

theorem Sendable.frames_short {k : Json N} (hj : Sendable eng j) (hk : Sendable eng k) :
    (frames eng.jsonCodec [j, k]).length ≤ channelWindowSize := by
  have hjfits := hj.fits
  have hkfits := hk.fits
  have hroom : 2 * (4 + channelMaxPacket) ≤ channelWindowSize := by decide
  simp only [frames, List.flatMap_cons, List.flatMap_nil, frame_eq, List.length_append,
    prefixOf_length, List.length_nil]
  omega

/-- A `close` at the end of a line. -/
theorem close_last {lines done todo : List (Line N)} {hijacked : Bool} (hnot : Line.close ∉ lines)
    (h : lines ++ closing hijacked = done ++ .close :: todo) : todo = [] := by
  cases hijacked with
  | true =>
    rw [closing, if_pos rfl, List.append_nil] at h
    exact absurd (h ▸ List.mem_append_right _ List.mem_cons_self) hnot
  | false =>
    rw [closing, if_neg (by decide)] at h
    rcases List.append_eq_append_iff.mp h with ⟨more, rfl, hmore⟩ | ⟨more, rfl, hmore⟩
    · cases more with
      | nil =>
        cases hmore
        rfl
      | cons l more =>
        have hlen := congrArg List.length hmore
        simp at hlen
    · cases more with
      | nil =>
        cases hmore
        rfl
      | cons l more =>
        cases hmore
        exact absurd (by simp) hnot

/-- A line that awaits values behind its writes has written all once it awaits one. -/
theorem writes_first {writes awaits done todo : List (Line N)} {v : Json N} (hw : decoded writes = [])
    (ha : written awaits = []) (h : writes ++ awaits = done ++ .decode v :: todo) :
    written done = written (writes ++ awaits) := by
  rw [written_append, ha, List.append_nil]
  rcases List.append_eq_append_iff.mp h with ⟨more, rfl, rfl⟩ | ⟨more, rfl, hmore⟩
  · rw [written_append] at ha
    rw [written_append, (List.append_eq_nil_iff.mp ha).1, List.append_nil]
  · cases more with
    | nil => rw [List.append_nil]
    | cons l more =>
      cases hmore
      rw [decoded_append, decoded_decode] at hw
      exact absurd hw (by simp)

end Values

/-- The values that go through a channel. -/
structure Traded (eng : Engine N) where
  call : Json N
  args : Json N
  header : Json N
  reply : Json N
  hijacked : Bool
  sendable : ∀ j ∈ [call, args, header, reply], Sendable eng j

section Trade

variable {eng : Engine N}

/-- What the end does but for its `close`. -/
def Traded.body (t : Traded eng) : End → List (Line N)
  | .caller => writesOf eng t.call ++ (writesOf eng t.args ++ [.decode t.header, .decode t.reply])
  | .responder => .decode t.call :: .decode t.args :: (writesOf eng t.header ++ writesOf eng t.reply)

/-- The values that the end awaits. -/
def Traded.awaits (t : Traded eng) : End → Json N × Json N
  | .caller => (t.header, t.reply)
  | .responder => (t.call, t.args)

/-- The read limit of the end's codec. -/
def limitOf : End → Int
  | .caller => 2
  | .responder => -1

theorem Traded.decoded_body (t : Traded eng) (e : End) :
    decoded (t.body e ++ closing t.hijacked) = [(t.awaits e).1, (t.awaits e).2] := by
  cases e <;> simp [Traded.body, Traded.awaits]

theorem Traded.written_body (t : Traded eng) (e : End) : written (t.body e.other ++ closing t.hijacked) =
    frames eng.jsonCodec [(t.awaits e).1, (t.awaits e).2] := by
  cases e <;> simp [Traded.body, Traded.awaits, End.other, frames]

theorem Traded.awaited_sendable (t : Traded eng) (e : End) :
    Sendable eng (t.awaits e).1 ∧ Sendable eng (t.awaits e).2 := by
  cases e with
  | caller => exact ⟨t.sendable _ (by simp [Traded.awaits]), t.sendable _ (by simp [Traded.awaits])⟩
  | responder => exact ⟨t.sendable _ (by simp [Traded.awaits]), t.sendable _ (by simp [Traded.awaits])⟩

theorem Traded.close_not_body (t : Traded eng) (e : End) : Line.close ∉ t.body e := by
  cases e <;> simp [Traded.body, close_not_writesOf]

theorem Traded.writes_fit (t : Traded eng) (e : End) {buffer : List UInt8}
    (hmem : Line.write buffer ∈ t.body e ++ closing t.hijacked) :
    buffer ≠ [] ∧ buffer.length ≤ channelMaxPacket := by
  rcases List.mem_append.mp hmem with hmem | hmem
  · obtain ⟨j, hj, hmem⟩ : ∃ j ∈ [t.call, t.args, t.header, t.reply], Line.write buffer ∈ writesOf eng j := by
      cases e <;> simp [Traded.body] at hmem ⊢ <;> tauto
    exact (t.sendable j hj).fits_writes hmem
  · rw [closing] at hmem
    split at hmem <;> simp at hmem

/-- The line of an end. -/
def Traded.part {ρ : End → Type} (t : Traded eng) (result : (e : End) → ρ e) (e : End) :
    Part eng (ρ e) where
  lines := t.body e ++ closing t.hijacked
  limit := limitOf e
  result := result e
  framable := by
    rw [t.decoded_body]
    obtain ⟨h1, h2⟩ := t.awaited_sendable e
    simp [h1.framable, h2.framable]
  fits _ hmem := t.writes_fit e hmem
  short := by
    rw [t.decoded_body]
    obtain ⟨h1, h2⟩ := t.awaited_sendable e
    exact h1.frames_short h2
  whole := by
    rw [t.decoded_body]
    cases e <;> rfl
  last _ _ h := close_last (t.close_not_body e) h

theorem Traded.talk {ρ : End → Type} (t : Traded eng) (result : (e : End) → ρ e) : Talk (t.part result) where
  fits e := by
    show written (t.body e.other ++ closing t.hijacked) = frames _ (decoded (t.body e ++ closing t.hijacked))
    rw [t.decoded_body, t.written_body]
  first done v todo h := by
    have hlines : t.body .caller ++ closing t.hijacked = (writesOf eng t.call ++ writesOf eng t.args) ++
        (.decode t.header :: .decode t.reply :: closing t.hijacked) := by
      simp [Traded.body]
    have h : t.body .caller ++ closing t.hijacked = done ++ .decode v :: todo := h
    rw [hlines] at h
    show written done = written (t.body .caller ++ closing t.hijacked)
    rw [hlines]
    exact writes_first (by simp) (by simp) h
  closes e := by
    have hmem : ∀ e, Line.close ∈ t.body e ++ closing t.hijacked ↔ t.hijacked = false := by
      intro e
      rw [List.mem_append, close_closing]
      exact ⟨fun h => h.resolve_left (t.close_not_body e), .inr⟩
    exact (hmem e).trans (hmem e.other).symm

end Trade

/-- What the functions at the two ends return. -/
def Result (N : Type) : End → Type
  | .caller => Except String (Response N)
  | .responder => Except String Unit

/-- A channel on which nothing has been done yet. -/
structure Unused (c : Chan) : Prop where
  unread : c.Unread []
  readers : c.readers = []
  ready : c.ready = .new
  sentEOF : c.sentEOF = false
  sentClose : c.sentClose = false
  payload : c.maxIncomingPayload = channelMaxPacket
  window : c.myWindow = channelWindowSize

/-- A function at the end of a channel that nobody has used, with a new codec. -/
def Party.start {ρ : Type} (channel : Chan) (readLimit : Int) (prog : Async N ρ) : Party N ρ :=
  { world := Rpc.start channel [] readLimit, prog }

/-- The call, behind `session.open`, and the responder that has accepted its channel. -/
def Conversation.start (eng : Engine N) (channel : End → Chan) (path : List UInt16) (args : JsValue N)
    (handler : List UInt16 → Except String (Option (Handler N))) : Conversation N (Result N)
  | .caller => .start (channel .caller) (limitOf .caller) (caller.call eng path args)
  | .responder => .start (channel .responder) (limitOf .responder) (Respond eng handler).run

theorem Self.start {ρ : Type} {P : Part eng ρ} {c : Chan} (hc : Unused c) {prog : Async N ρ}
    (h : Follows P.result P.lines prog) :
    Self P (.start c P.limit prog) ⟨[], P.lines, false, false⟩ where
  lines := rfl
  follows := h
  standing := .ready (by simp)
  answered := Nat.zero_le _
  cut := List.nil_prefix
  sentEOF := hc.sentEOF
  sentClose := hc.sentClose
  removed := rfl
  closing := by
    have hready : (Party.start c P.limit prog).world.channel.ready = .new := hc.ready
    rw [hready]
    exact ⟨rfl, rfl, by simp [Party.start], by simp [Queue.new], fun hst => by cases hst⟩
  payload := hc.payload
  window := hc.window
  idle _ := rfl
  serving _ := ⟨[], [], .start hc.unread hc.readers P.limit, rfl⟩
  emptied hd := by cases hd
  count := by
    show 0 + (FrameCodec.iterate _).readLoop.holding ≤ _
    rw [(iterate_rank _).2]
    exact Nat.zero_le _

/-- Both ends at the start. -/
theorem Inv.start {ρ : End → Type} {P : (e : End) → Part eng (ρ e)} {channel : End → Chan}
    (hunused : ∀ e, Unused (channel e)) {prog : (e : End) → Async N (ρ e)}
    (h : ∀ e, Follows (P e).result (P e).lines (prog e)) :
    Inv P (fun e => .start (channel e) (P e).limit (prog e)) fun e => ⟨[], (P e).lines, false, false⟩ where
  self e := .start (hunused e) (h e)
  wire e := by
    have hopen : (Party.start (channel e) (P e).limit (prog e)).world.channel.sentClose = false :=
      (hunused e).sentClose
    rw [hopen]
    exact Wire.sending (List.append_nil []) fun d hd => absurd hd List.not_mem_nil
  silent e hsent := absurd hsent (by simp [Party.start, Rpc.start, (hunused e).sentClose])
  asked e hsent := absurd hsent (by simp [Party.start, Rpc.start, (hunused e).sentClose])

/-- In every state that is reached both ends are somewhere on their lines. -/
theorem Inv.run {ρ : End → Type} {P : (e : End) → Part eng (ρ e)} (hT : Talk P) {s₀ s : Conversation N ρ}
    {f : End → Mark N} (h : Inv P s₀ f) (run : Run (Conversation.next eng) anyStep s₀ s) :
    ∃ f, Inv P s f := by
  refine Run.invariant (I := fun s => ∃ f, Inv P s f) ⟨f, h⟩ ?_ run
  rintro s a s' - ⟨f, h⟩ - hn
  obtain ⟨f', h', -⟩ := h.step hT hn
  exact ⟨f', h'⟩

theorem Inv.terminates {ρ : End → Type} {P : (e : End) → Part eng (ρ e)} (hT : Talk P)
    {s : Conversation N ρ} {f : End → Mark N} (h : Inv P s f) :
    Terminates (Conversation.next eng) anyStep s := by
  refine Terminates.of_rank (I := fun s n => ∃ f, Inv P s f ∧ weight P s f = n) ?_ ⟨f, h, rfl⟩
  rintro s n a s' ⟨f, h, rfl⟩ - hn
  obtain ⟨f', h', hless⟩ := h.step hT hn
  exact ⟨_, hless, f', h', rfl⟩

theorem replyValues_eq (hijacked : Bool) (v : Returned N) :
    replyValues hijacked v = [v.header hijacked, v.reply] := by
  cases v <;> rfl

theorem Returned.header_distinct (v : Returned N) (hijacked : Bool) : (v.header hijacked).Distinct := by
  cases v <;> exact responseHeader_distinct _ _

theorem Returned.reply_distinct {v : Returned N} (h : v.Distinct) : v.reply.Distinct := by
  cases v with
  | error _ => trivial
  | value _ => exact h

/-- The values of a call and its answer. -/
def tradeOf (eng : Engine N) {call : CallFields UInt16} {args : JsValue N} {hijacked : Bool}
    {answer : Returned N} (hargs : args.Distinct) (hreply : answer.Distinct)
    (hpass : ∀ v ∈ callValues call args ++ replyValues hijacked answer, eng.Passable v) : Traded eng where
  call := eng.json call.value
  args := eng.json args
  header := eng.json (answer.header hijacked)
  reply := eng.json answer.reply
  hijacked := hijacked
  sendable := by
    rw [replyValues_eq, callValues] at hpass
    simp only [List.cons_append, List.nil_append, List.forall_mem_cons] at hpass ⊢
    obtain ⟨hcall, hargs', hheader, hreply', -⟩ := hpass
    exact ⟨.of_passable call.value_distinct hcall, .of_passable hargs hargs',
      .of_passable (answer.header_distinct hijacked) hheader, .of_passable (Returned.reply_distinct hreply) hreply',
      by simp⟩

/-- What the functions at the two ends return in the end. -/
def outcomeOf (eng : Engine N) (hijacked : Bool) (answer : Returned N) : (e : End) → Result N e
  | .caller => .ok (responseOf eng hijacked answer)
  | .responder => .ok ()

/-- **A call and its answer.** Between two unused ends of a channel, for values that go through
frames, whatever the order in which the two functions, their read loops, the calls of `close` and
the messages take their turns: no message is refused; nothing is returned but the response with
what the handler made of the call; the conversation comes to rest; and there both functions have
returned, and both ends have closed the channel and forgotten it, or neither, if it was hijacked. -/
theorem call_completes (eng : Engine N) {path : List UInt16} {args : JsValue N}
    {handler : List UInt16 → Except String (Option (Handler N))} {call received : CallFields UInt16}
    {hijacked : Bool} {f : CallFields UInt16 → Json N → Returned N} {answer : Returned N}
    (hpath : CallFields.constructor path = .ok call)
    (hreceived : CallFields.constructor call.Destination = .ok received)
    (hhandler : handler received.Destination = .ok (some (answering eng hijacked f)))
    (hanswer : f received (eng.json args) = answer) (hargs : args.Distinct) (hreply : answer.Distinct)
    (hpass : ∀ v ∈ callValues call args ++ replyValues hijacked answer, eng.Passable v)
    {channel : End → Chan} (hunused : ∀ e, Unused (channel e)) {s : Conversation N (Result N)}
    (run : Run (Conversation.next eng) anyStep (.start eng channel path args handler) s) :
    (∀ e, (s (End.other e)).out ≠ [] → s.next eng (.deliver e) ≠ none) ∧
    (∀ r, (s .caller).prog = .ret r → r = .ok (responseOf eng hijacked answer)) ∧
    Terminates (Conversation.next eng) anyStep s ∧
    (s.AtRest eng → (s .caller).prog = .ret (.ok (responseOf eng hijacked answer)) ∧
      (s .responder).prog = .ret (.ok ()) ∧
      ∀ e, (s e).world.channel.sentClose = !hijacked ∧ (s e).removed = !hijacked) := by
  let t := tradeOf eng hargs hreply hpass
  let P : (e : End) → Part eng (Result N e) := t.part (outcomeOf eng hijacked answer)
  have hT : Talk P := t.talk _
  have hfollows : ∀ e, Follows (P e).result (P e).lines
      (Conversation.start eng channel path args handler e).prog := by
    rw [replyValues_eq, callValues] at hpass
    simp only [List.cons_append, List.nil_append, List.forall_mem_cons] at hpass
    obtain ⟨hcall, hargs', hheader, hreply', -⟩ := hpass
    intro e
    cases e with
    | caller =>
      have h := call_follows hpath hcall hargs' hijacked answer
      show Follows _ (t.body .caller ++ closing hijacked) (caller.call eng path args)
      rw [Traded.body, List.append_assoc, List.append_assoc]
      exact h
    | responder =>
      rw [← hanswer] at hheader hreply'
      have h := Respond_follows (eng.json args) hreceived hhandler hheader hreply'
      rw [hanswer] at h
      show Follows _ (t.body .responder ++ closing hijacked) (Respond eng handler).run
      rw [Traded.body, List.cons_append, List.cons_append, List.append_assoc]
      exact h
  have hstart : Inv P (Conversation.start eng channel path args handler)
      fun e => ⟨[], (P e).lines, false, false⟩ := by
    have h := Inv.start hunused hfollows
    have heq : Conversation.start eng channel path args handler = fun e =>
        .start (channel e) (P e).limit (Conversation.start eng channel path args handler e).prog := by
      funext e
      cases e <;> rfl
    rw [heq]
    exact h
  obtain ⟨f, h⟩ := hstart.run hT run
  have hclose : ∀ e, Line.close ∈ (P e).lines ↔ hijacked = false := by
    intro e
    show Line.close ∈ t.body e ++ closing hijacked ↔ _
    rw [List.mem_append, close_closing]
    exact ⟨fun h => h.resolve_left (t.close_not_body e), .inr⟩
  refine ⟨fun e hout => ?_, fun r hr => ?_, h.terminates hT, fun hrest => ⟨?_, ?_, fun e => ?_⟩⟩
  · obtain ⟨m, out, hout⟩ := List.exists_cons_of_ne_nil hout
    obtain ⟨s', -, hn, -⟩ := h.deliver hT hout
    rw [hn]
    simp
  · have hf := (h.self .caller).follows
    rw [hr] at hf
    generalize (f .caller).todo = todo at hf
    cases hf
    rfl
  · exact (h.ended hT hrest .caller).1
  · exact (h.ended hT hrest .responder).1
  · obtain ⟨-, hsent, hremoved⟩ := h.ended hT hrest e
    have hsent' : (s e).world.channel.sentClose = !hijacked := by
      rw [hclose e] at hsent
      cases hijacked <;> simpa using hsent
    exact ⟨hsent', hremoved.trans hsent'⟩

/-- The object that comes back from `/add`, and a mux that has it alone. -/
def addSum : Returned Nat := .value (.object [(propName "sum", .number (.finite 17))])

def addMux (_ : List UInt16) : Except String (Option (Handler Nat)) :=
  .ok (some (answering naturals false fun _ _ => addSum))

/-- A call of it with two numbers. -/
theorem call_completes_add :
    ∃ s, Run (Conversation.next naturals) anyStep
        (.start naturals
          (fun _ => { Channel.new with
            maxIncomingPayload := channelMaxPacket, myWindow := channelWindowSize, readBuf := some [] })
          (utf16 "/add".toList) (proxyParams [.number (.finite 5), .number (.finite 12)]) addMux) s ∧
      (s .caller).prog = .ret (.ok (responseOf naturals false addSum)) := by
  have hpath : CallFields.constructor (utf16 "/add".toList) = .ok addCall := rfl
  have hreceived : CallFields.constructor addCall.Destination = .ok addCall := rfl
  have hargs : (proxyParams [.number (.finite 5), .number (.finite 12)] : JsValue Nat).Distinct :=
    ⟨trivial, trivial, trivial⟩
  have hreply : addSum.Distinct := ⟨by decide, trivial, trivial⟩
  have hpass : ∀ v ∈ callValues addCall (proxyParams [.number (.finite 5), .number (.finite 12)]) ++
      replyValues false addSum, naturals.Passable v := by
    simp only [callValues, replyValues, addSum, List.cons_append, List.nil_append, List.forall_mem_cons]
    exact ⟨⟨"\x7b\"Destination\":\"add\",\"objectPath\":\"/\",\"method\":\"add\"\x7d".toList,
        by decide +kernel, by decide +kernel⟩,
      ⟨"[5,12]".toList, by decide +kernel, by decide +kernel⟩,
      ⟨"\x7b\"Hijacked\":false\x7d".toList, by decide +kernel, by decide +kernel⟩,
      ⟨"\x7b\"sum\":17\x7d".toList, by decide +kernel, by decide +kernel⟩, by simp⟩
  have hunused : ∀ _ : End, Unused { Channel.new with
      maxIncomingPayload := channelMaxPacket, myWindow := channelWindowSize, readBuf := some [] } :=
    fun _ => ⟨⟨rfl, rfl⟩, rfl, rfl, rfl, rfl, rfl, rfl⟩
  have hhandler : addMux addCall.Destination =
      .ok (some (answering naturals false fun _ _ => addSum)) := rfl
  have hstart := call_completes naturals hpath hreceived hhandler rfl hargs hreply hpass hunused .start
  obtain ⟨s, run, hrest⟩ := hstart.2.2.1.rests
  have hs := call_completes naturals hpath hreceived hhandler rfl hargs hreply hpass hunused run
  exact ⟨s, run, (hs.2.2.2 fun a => hrest a trivial).1⟩

end Qtalk.Js.Rpc
