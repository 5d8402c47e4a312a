import Qtalk.Js.Session

/-!
# One channel of a session

`View` is what there is to say about one channel object: its state, whether the table has
it, its part of the log, the promises settled for it, and whether the session was closed.
Every step of a session changes a view by entering a method, by the session's `close`, or
not at all (`Numbered.changes`); `view_invariant` is the induction rule that follows.
-/

namespace Qtalk.Js
open Qtalk.Lib

/-- The entries of a list that are about channel `o`. -/
def mine {α : Type} (o : Nat) (l : List (Option Nat × α)) : List α :=
  l.filterMap fun x => if x.1 = some o then some x.2 else none

section Mine

variable {α : Type} {o : Nat}

@[simp] theorem mine_append (l l' : List (Option Nat × α)) : mine o (l ++ l') = mine o l ++ mine o l' :=
  List.filterMap_append

theorem mine_single (k : Option Nat) (a : α) : mine o [(k, a)] = if k = some o then [a] else [] := by
  rw [mine, List.filterMap_cons]
  split <;> split at * <;> simp_all

theorem mine_map (k : Option Nat) (l : List α) :
    mine o (l.map fun a => (k, a)) = if k = some o then l else [] := by
  induction l with
  | nil => simp [mine]
  | cons a l ih =>
    rw [List.map_cons, ← List.singleton_append, mine_append, ih, mine_single]
    split <;> simp

end Mine

/-- The messages written, in order. -/
def sentOf (log : List Entry) : List Message :=
  log.filterMap fun | .sent m => some m | .got _ => none

/-- The messages that came in, in order. -/
def gotOf (log : List Entry) : List Message :=
  log.filterMap fun | .got m => some m | .sent _ => none

section Log

variable (l l' : List Entry) (ms : List Message)

@[simp] theorem sentOf_append : sentOf (l ++ l') = sentOf l ++ sentOf l' := List.filterMap_append

@[simp] theorem gotOf_append : gotOf (l ++ l') = gotOf l ++ gotOf l' := List.filterMap_append

@[simp] theorem sentOf_map : sentOf (ms.map .sent) = ms := by
  induction ms with
  | nil => rfl
  | cons m ms ih => rw [List.map_cons, ← List.singleton_append, sentOf_append, ih]; rfl

@[simp] theorem gotOf_map : gotOf (ms.map .sent) = [] := by
  induction ms with
  | nil => rfl
  | cons m ms ih => rw [List.map_cons, ← List.singleton_append, gotOf_append, ih]; rfl

@[simp] theorem sentOf_entries (call : Call) : sentOf call.entries = [] := by
  cases call <;> rfl

end Log

structure View where
  ch : Chan
  listed : Bool
  log : List Entry
  settled : List (Nat × Value)
  closed : Bool
  deriving DecidableEq, Repr

namespace View

def perform (v : View) : Effect → View
  | .encode m => { v with log := v.log ++ [.sent m] }
  | .rmCh _ => { v with listed := false }
  | .settle p x => { v with settled := v.settled ++ [(p, x)] }
  | .later _ => v

/-- A method of the channel runs up to an await or its end. -/
def enter (v : View) (call : Call) : View :=
  (v.ch.enter call).effects.foldl perform
    { v with ch := (v.ch.enter call).ch, log := v.log ++ call.entries }

/-- What a method writes. -/
def encodes (es : List Effect) : List Message :=
  es.filterMap fun | .encode m => some m | _ => none

/-- The promises a method settles. -/
def settles (es : List Effect) : List (Nat × Value) :=
  es.filterMap fun | .settle p v => some (p, v) | _ => none

/-- Whether a method takes its channel out of the table. -/
def removes (es : List Effect) : Bool :=
  es.any fun | .rmCh _ => true | _ => false

@[simp] theorem encodes_append (es es' : List Effect) :
    encodes (es ++ es') = encodes es ++ encodes es' :=
  List.filterMap_append

@[simp] theorem settles_append (es es' : List Effect) :
    settles (es ++ es') = settles es ++ settles es' :=
  List.filterMap_append

@[simp] theorem removes_append (es es' : List Effect) :
    removes (es ++ es') = (removes es || removes es') :=
  List.any_append

theorem foldl_perform (v : View) (es : List Effect) :
    es.foldl perform v = { v with
      listed := v.listed && !removes es
      log := v.log ++ (encodes es).map .sent
      settled := v.settled ++ settles es } := by
  induction es generalizing v with
  | nil => simp [encodes, settles, removes]
  | cons e es ih =>
    rw [List.foldl_cons, ih]
    cases e <;> simp [perform, encodes, settles, removes, List.append_assoc]

theorem enter_eq (v : View) (call : Call) :
    v.enter call =
      { ch := (v.ch.enter call).ch
        listed := v.listed && !removes (v.ch.enter call).effects
        log := v.log ++ call.entries ++ (encodes (v.ch.enter call).effects).map .sent
        settled := v.settled ++ settles (v.ch.enter call).effects
        closed := v.closed } := by
  rw [enter, foldl_perform]

/-- The session is closed. -/
def shut (v : View) : View :=
  { if v.listed then v.enter .shutdown else v with closed := true }

end View

namespace Session

def view (s : Session) (o : Nat) : View where
  ch := s.chans[o]?.getD .new
  listed := decide (s.getCh o = some o)
  log := mine o s.log
  settled := mine o s.settled
  closed := s.closed

/-- Channels, ids and slots have the same numbers, everything recorded is about a channel
there is, and `incoming` stays open. -/
structure Numbered (s : Session) : Prop where
  len : s.chans.length = s.channels.length
  ids : ∀ (o : Nat) (c : Chan), s.chans[o]? = some c → c.localId = o
  slots : ∀ i o, s.getCh i = some o → i = o
  incoming : s.incoming.closed = false
  queued : ∀ o ∈ s.incoming.q, o < s.chans.length
  fresh : ∀ o, s.chans.length ≤ o → mine o s.log = [] ∧ mine o s.settled = []

variable {s s' : Session} {o o' : Nat}

theorem view_ch {c : Chan} (h : s.chans[o]? = some c) : (s.view o).ch = c := by
  rw [view, h]
  rfl

theorem getCh_set (s : Session) (id i : Nat) :
    ({ s with channels := s.channels.set id none } : Session).getCh i
      = if i = id then none else s.getCh i := by
  simp only [getCh, List.getElem?_set]
  by_cases h : i = id
  · subst h
    by_cases hi : i < s.channels.length
    · simp [hi]
    · simp [hi]
  · rw [if_neg (Ne.symm h), if_neg h]

/-- An effect of channel `o` shows in the view of `o` only. -/
theorem view_perform {e : Effect} (hid : ∀ id, e = .rmCh id → id = o) :
    (perform o s e).view o' = if o' = o then (s.view o).perform e else s.view o' := by
  cases e with
  | encode m =>
    rw [perform, view, view, View.perform]
    simp only [mine_append, mine_single, Option.some.injEq]
    by_cases h : o' = o
    · subst h
      rw [if_pos rfl, if_pos rfl]
      rfl
    · rw [if_neg (Ne.symm h), if_neg h, List.append_nil]
      rfl
  | rmCh id =>
    rw [hid id rfl, perform]
    by_cases h : o' = o
    · subst h
      rw [if_pos rfl, view, getCh_set, if_pos rfl]
      rfl
    · rw [if_neg h, view, getCh_set, if_neg h]
      rfl
  | settle p v =>
    rw [perform, view, view, View.perform]
    simp only [mine_append, mine_single, Option.some.injEq]
    by_cases h : o' = o
    · subst h
      rw [if_pos rfl, if_pos rfl]
      rfl
    · rw [if_neg (Ne.symm h), if_neg h, List.append_nil]
      rfl
  | later t =>
    by_cases h : o' = o
    · subst h
      rw [if_pos rfl]
      rfl
    · rw [if_neg h]
      rfl

theorem view_effects {es : List Effect} (hid : ∀ id, .rmCh id ∈ es → id = o) :
    (es.foldl (perform o) s).view o'
      = if o' = o then es.foldl View.perform (s.view o) else s.view o' := by
  induction es generalizing s with
  | nil =>
    by_cases h : o' = o
    · rw [h, if_pos rfl]
      rfl
    · rw [if_neg h]
      rfl
  | cons e es ih =>
    have he : ∀ id, e = .rmCh id → id = o := fun id he => hid id (he ▸ List.mem_cons_self)
    have hes : ∀ id, .rmCh id ∈ es → id = o := fun id h => hid id (List.mem_cons_of_mem _ h)
    rw [List.foldl_cons, ih hes, view_perform he, view_perform he, if_pos rfl, List.foldl_cons]
    by_cases h : o' = o
    · rw [if_pos h, if_pos h]
    · rw [if_neg h, if_neg h, if_neg h]

end Session

/-- A message is given to the channel it names. -/
def Call.For (o : Nat) : Call → Prop
  | .handle _ m => m.channelID = o
  | _ => True

namespace Channel

/-- A method keeps `localId` and removes no channel but its own, or the one a message is for. -/
structure Own (c : Chan) (o : Nat) (out : Outcome) : Prop where
  localId : out.ch.localId = c.localId
  removes : ∀ id, .rmCh id ∈ out.effects → id = o

variable {c : Chan} {o : Nat}

theorem tryRead_localId {ω : Type} (c : Channel ω) (p len : Nat) :
    (c.tryRead p len).2.localId = c.localId := by
  rw [tryRead]
  split
  · rfl
  · split
    · rfl
    · split <;> rfl

theorem not_rmCh_settle {p id : Nat} (res : ReadResult) : .rmCh id ∉ res.settle p := by
  cases res <;> simp [ReadResult.settle]

theorem own_read (c : Chan) (o p len : Nat) : c.Own o (c.read p len) :=
  ⟨tryRead_localId c p len, fun _ h => absurd h (not_rmCh_settle _)⟩

theorem own_send (c : Chan) (o : Nat) (m : Message) : c.Own o (c.send m) := by
  rw [send]
  split
  · exact ⟨rfl, by simp⟩
  · exact ⟨rfl, by simp⟩

theorem own_shutdown (h : c.localId = o) : c.Own o c.shutdown where
  localId := rfl
  removes id hid := by
    simp only [shutdown, List.mem_append, List.mem_map, List.mem_singleton] at hid
    rcases hid with (⟨r, -, hr⟩ | ⟨w, -, hw⟩) | hid
    · cases hr
    · cases hw
    · cases hid
      exact h

theorem own_close (h : c.localId = o) (p : Nat) : c.Own o (c.close p) := by
  rw [close]
  split
  · obtain ⟨hl, hr⟩ := own_shutdown h
    refine ⟨hl, fun id hid => ?_⟩
    rw [List.mem_append, List.mem_singleton] at hid
    rcases hid with hid | hid
    · exact hr id hid
    · cases hid
  · obtain ⟨hl, hr⟩ := own_send c o (.close c.remoteId)
    refine ⟨hl, fun id hid => ?_⟩
    rw [List.mem_append, List.mem_singleton] at hid
    rcases hid with hid | hid
    · exact hr id hid
    · cases hid

theorem own_shift (c : Chan) (o : Nat) (w : Waiter) : c.Own o (c.shift w) :=
  ⟨rfl, fun id h => by simp [shift] at h⟩

theorem own_pushReady (c : Chan) (o : Nat) (v : Bool) : c.Own o (c.pushReady v) := by
  rw [pushReady]
  split
  · exact ⟨rfl, by simp⟩
  · exact ⟨rfl, fun id h => by simp at h⟩

theorem own_resume (c : Chan) (o : Nat) (t : Task) : c.Own o (c.resume t) := by
  cases t with
  | opened p => exact own_shift c o _
  | openReady p v => exact ⟨rfl, by simp [resume]⟩
  | closeSent p =>
    obtain ⟨hl, hr⟩ := own_shift { c with sentClose := true } o (.closing p)
    exact ⟨hl, hr⟩
  | closeReady p v =>
    cases v with
    | none => exact ⟨rfl, by simp [resume]⟩
    | some v => exact own_shift c o _

theorem handleData_localId {ω : Type} {c ch : Channel ω} {length : Nat} {data : List UInt8}
    {woken : Option (Nat × ReadResult)} (h : c.handleData length data = .ok (woken, ch)) :
    ch.localId = c.localId := by
  obtain ⟨-, -, ⟨-, -, hch⟩ | ⟨p, len, readers, -, -, hch⟩⟩ := handleData_ok h
  · rw [hch, take]
  · rw [hch, tryRead_localId, taken]

theorem own_handle (h : c.localId = o) (p : Nat) {m : Message} (hm : m.channelID = o) :
    c.Own o (c.handle p m) := by
  cases m with
  | openMsg senderID windowSize maxPacketSize => exact ⟨rfl, by simp [handle]⟩
  | openConfirm channelID senderID windowSize maxPacketSize =>
    rw [handle]
    split
    · exact ⟨rfl, by simp⟩
    · obtain ⟨hl, hr⟩ := own_pushReady { c with remoteId := senderID, maxRemotePayload := maxPacketSize,
                                                 remoteWin := c.remoteWin + windowSize } o true
      exact ⟨hl, hr⟩
  | openFailure channelID =>
    obtain ⟨hl, hr⟩ := own_pushReady c o false
    refine ⟨hl, fun id hid => ?_⟩
    rw [handle, List.mem_cons] at hid
    rcases hid with hid | hid
    · cases hid
      exact hm
    · exact hr id hid
  | windowAdjust channelID additionalBytes => exact ⟨rfl, by simp [handle]⟩
  | data channelID length data =>
    rw [handle]
    cases hd : c.handleData length data with
    | error e => exact ⟨rfl, by simp⟩
    | ok res =>
      obtain ⟨woken, ch⟩ := res
      refine ⟨handleData_localId hd, fun id hid => ?_⟩
      simp only [List.mem_flatMap] at hid
      obtain ⟨w, -, hw⟩ := hid
      exact absurd hw (not_rmCh_settle _)
  | eof channelID => exact ⟨rfl, by simp [handle]⟩
  | close channelID => exact own_close h p

/-- Every method keeps to its own channel. -/
theorem own_enter (h : c.localId = o) {call : Call} (hcall : call.For o) : c.Own o (c.enter call) := by
  cases call with
  | read p len => exact own_read c o p len
  | write buf =>
    rw [enter, write]
    split
    · exact ⟨rfl, by simp⟩
    · exact own_send c o _
  | closeWrite =>
    obtain ⟨hl, hr⟩ := own_send { c with sentEOF := true } o (.eof c.remoteId)
    exact ⟨hl, hr⟩
  | close p => exact own_close h p
  | shutdown => exact own_shutdown h
  | handle p m => exact own_handle h p hcall
  | resume t => exact own_resume c o t

/-! The only task that sets `sentClose` is left behind by a method that has set it. -/

theorem task_ne (w : Waiter) (v : Option Bool) (p : Nat) : w.task v ≠ .closeSent p := by
  cases w <;> exact Task.noConfusion

theorem later_settle {t : Task} {p : Nat} (res : ReadResult) : .later t ∉ res.settle p := by
  cases res <;> simp [ReadResult.settle]

theorem later_send {t : Task} (c : Chan) (m : Message) : .later t ∉ (c.send m).effects := by
  rw [send]
  split <;> simp

theorem later_shutdown {t : Task} (h : .later t ∈ c.shutdown.effects) : ∃ w : Waiter, t = w.task none := by
  simp only [shutdown, List.mem_append, List.mem_map, List.mem_singleton] at h
  rcases h with (⟨r, -, hr⟩ | ⟨w, -, hw⟩) | h
  · cases hr
  · cases hw
    exact ⟨w, rfl⟩
  · cases h

theorem later_shift {t : Task} {w : Waiter} (h : .later t ∈ (c.shift w).effects) :
    ∃ v, t = w.task v := by
  simp only [shift, List.mem_map] at h
  obtain ⟨v, -, hv⟩ := h
  cases hv
  exact ⟨v, rfl⟩

theorem later_pushReady {t : Task} {v : Bool} (h : .later t ∈ (c.pushReady v).effects) :
    ∃ w : Waiter, t = w.task (some v) := by
  rw [pushReady] at h
  split at h
  · simp at h
  · simp only [List.mem_map] at h
    obtain ⟨w, -, hw⟩ := h
    cases hw
    exact ⟨w, rfl⟩

/-- `close` sends the Close or has sent it. -/
theorem close_sentClose (c : Chan) (p : Nat) : (c.close p).ch.sentClose = true := by
  rw [close]
  split
  · next hsent => exact hsent
  · next hsent =>
    rw [send, if_neg hsent]
    rfl

theorem later_enter {call : Call} {q : Nat} (h : .later (.closeSent q) ∈ (c.enter call).effects) :
    (c.enter call).ch.sentClose = true := by
  cases call with
  | read p len => exact absurd h (later_settle _)
  | write buf =>
    rw [enter, write] at h
    split at h
    · simp at h
    · exact absurd h (later_send c _)
  | closeWrite => exact absurd h (later_send { c with sentEOF := true } _)
  | close p => exact close_sentClose c p
  | shutdown =>
    obtain ⟨w, hw⟩ := later_shutdown h
    exact absurd hw.symm (task_ne w none q)
  | handle p m =>
    rw [enter] at h ⊢
    cases m with
    | close channelID => exact close_sentClose c p
    | data channelID length data =>
      rw [handle] at h
      split at h
      · simp at h
      · simp only [List.mem_flatMap] at h
        obtain ⟨w, -, hw⟩ := h
        exact absurd hw (later_settle _)
    | openFailure channelID =>
      rw [handle, List.mem_cons] at h
      rcases h with h | h
      · cases h
      · obtain ⟨w, hw⟩ := later_pushReady h
        exact absurd hw.symm (task_ne w _ q)
    | openConfirm channelID senderID windowSize maxPacketSize =>
      rw [handle] at h
      split at h
      · simp at h
      · obtain ⟨w, hw⟩ := later_pushReady h
        exact absurd hw.symm (task_ne w _ q)
    | _ => simp [handle] at h
  | resume t =>
    cases t with
    | opened p =>
      obtain ⟨v, hv⟩ := later_shift h
      exact absurd hv.symm (task_ne _ v q)
    | openReady p v => simp [enter, resume] at h
    | closeSent p => rfl
    | closeReady p v =>
      cases v with
      | none => simp [enter, resume] at h
      | some v =>
        obtain ⟨v', hv⟩ := later_shift h
        exact absurd hv.symm (task_ne _ v' q)

end Channel

namespace Session

variable {s s' : Session} {o o' : Nat}

/-! ## What the steps do to the table -/

theorem perform_frame (s : Session) (o : Nat) (e : Effect) :
    (perform o s e).chans = s.chans ∧ (perform o s e).incoming = s.incoming ∧
      (perform o s e).closed = s.closed ∧ (perform o s e).loop = s.loop ∧
      (perform o s e).calls = s.calls := by
  cases e <;> exact ⟨rfl, rfl, rfl, rfl, rfl⟩

theorem effects_frame (s : Session) (o : Nat) (es : List Effect) :
    (es.foldl (perform o) s).chans = s.chans ∧ (es.foldl (perform o) s).incoming = s.incoming ∧
      (es.foldl (perform o) s).closed = s.closed ∧ (es.foldl (perform o) s).loop = s.loop ∧
      (es.foldl (perform o) s).calls = s.calls := by
  induction es generalizing s with
  | nil => exact ⟨rfl, rfl, rfl, rfl, rfl⟩
  | cons e es ih =>
    obtain ⟨h1, h2, h3, h4, h5⟩ := ih (perform o s e)
    obtain ⟨e1, e2, e3, e4, e5⟩ := perform_frame s o e
    exact ⟨h1.trans e1, h2.trans e2, h3.trans e3, h4.trans e4, h5.trans e5⟩

theorem enter_some {c : Chan} (hc : s.chans[o]? = some c) (call : Call) :
    s.enter o call = ((c.enter call).effects.foldl (perform o)
      { s with chans := s.chans.set o (c.enter call).ch
               log := s.log ++ call.entries.map (fun e => (some o, e)) }, (c.enter call).error) := by
  rw [enter, hc]

theorem enter_frame (s : Session) (o : Nat) (call : Call) :
    (s.enter o call).1.chans.length = s.chans.length ∧ (s.enter o call).1.incoming = s.incoming ∧
      (s.enter o call).1.closed = s.closed ∧ (s.enter o call).1.loop = s.loop ∧
      (s.enter o call).1.calls = s.calls := by
  cases hc : s.chans[o]? with
  | none =>
    rw [enter, hc]
    exact ⟨rfl, rfl, rfl, rfl, rfl⟩
  | some c =>
    rw [enter_some hc]
    obtain ⟨h1, h2, h3, h4, h5⟩ := effects_frame { s with
      chans := s.chans.set o (c.enter call).ch
      log := s.log ++ call.entries.map (fun e => (some o, e)) } o (c.enter call).effects
    exact ⟨by rw [h1, List.length_set], h2, h3, h4, h5⟩

theorem effects_tasks {es : List Effect} {x : Nat × Task}
    (h : x ∈ (es.foldl (perform o) s).tasks) : x ∈ s.tasks ∨ (x.1 = o ∧ .later x.2 ∈ es) := by
  induction es generalizing s with
  | nil => exact .inl h
  | cons e es ih =>
    rcases ih h with h | ⟨ho, h⟩
    · cases e with
      | later t =>
        rw [perform, List.mem_append, List.mem_singleton] at h
        rcases h with h | h
        · exact .inl h
        · rw [h]
          exact .inr ⟨rfl, List.mem_cons_self⟩
      | _ => exact .inl h
    · exact .inr ⟨ho, List.mem_cons_of_mem _ h⟩

/-- The tasks that entering a channel leaves behind. -/
theorem enter_tasks {call : Call} {x : Nat × Task} (h : x ∈ (s.enter o call).1.tasks) :
    x ∈ s.tasks ∨ (x.1 = o ∧ o < s.chans.length ∧ .later x.2 ∈ ((s.view o).ch.enter call).effects) := by
  cases hc : s.chans[o]? with
  | none =>
    rw [enter, hc] at h
    exact .inl h
  | some c =>
    rw [enter_some hc] at h
    rcases effects_tasks h with h | ⟨hx, h⟩
    · exact .inl h
    · rw [view_ch hc]
      exact .inr ⟨hx, (List.getElem?_eq_some_iff.mp hc).1, h⟩

theorem shutdownAll_tasks {ids : List Nat} {k p : Nat}
    (h : (k, .closeSent p) ∈ (s.shutdownAll ids).tasks) : (k, .closeSent p) ∈ s.tasks := by
  induction ids generalizing s with
  | nil => exact h
  | cons id ids ih =>
    rw [shutdownAll] at h
    split at h
    · exact ih h
    · rcases enter_tasks (ih h) with h | ⟨-, -, h⟩
      · exact h
      · obtain ⟨w, hw⟩ := Channel.later_shutdown h
        exact absurd hw.symm (Channel.task_ne w none p)

/-- Entering a channel shows in its view only. -/
theorem Numbered.view_enter (h : s.Numbered) {c : Chan} (hc : s.chans[o]? = some c) {call : Call}
    (hcall : call.For o) (o' : Nat) :
    (s.enter o call).1.view o' = if o' = o then (s.view o).enter call else s.view o' := by
  have hown := Channel.own_enter (h.ids o c hc) hcall
  have ho := (List.getElem?_eq_some_iff.mp hc).1
  rw [enter_some hc, view_effects hown.removes]
  by_cases heq : o' = o
  · rw [if_pos heq, if_pos heq, View.enter, view_ch hc]
    congr 1
    rw [view, view]
    simp only [mine_append, mine_map, List.getElem?_set, if_true, if_pos ho]
    rfl
  · rw [if_neg heq, if_neg heq, view, view]
    simp only [mine_append, mine_map, Option.some.injEq, List.getElem?_set, if_neg (Ne.symm heq),
      List.append_nil]
    rfl

theorem perform_getCh {e : Effect} {i k : Nat} (h : (perform o s e).getCh i = some k) :
    s.getCh i = some k := by
  cases e with
  | rmCh id =>
    rw [perform, getCh_set] at h
    split at h
    · cases h
    · exact h
  | _ => exact h

theorem effects_getCh {es : List Effect} {i k : Nat} (h : (es.foldl (perform o) s).getCh i = some k) :
    s.getCh i = some k := by
  induction es generalizing s with
  | nil => exact h
  | cons e es ih => exact perform_getCh (ih h)

theorem effects_length (s : Session) (o : Nat) (es : List Effect) :
    (es.foldl (perform o) s).channels.length = s.channels.length := by
  induction es generalizing s with
  | nil => rfl
  | cons e es ih =>
    rw [List.foldl_cons, ih]
    cases e with
    | rmCh id => exact List.length_set
    | _ => rfl

theorem Numbered.enter (h : s.Numbered) {call : Call} (hcall : call.For o) :
    (s.enter o call).1.Numbered := by
  cases hc : s.chans[o]? with
  | none =>
    rw [Session.enter, hc]
    exact h
  | some c =>
    have hown := Channel.own_enter (h.ids o c hc) hcall
    obtain ⟨hchans, hincoming, -⟩ := effects_frame { s with
      chans := s.chans.set o (c.enter call).ch
      log := s.log ++ call.entries.map (fun e => (some o, e)) } o (c.enter call).effects
    rw [enter_some hc]
    refine ⟨?_, fun o' c' hc' => ?_, fun i k hi => ?_, ?_, ?_, fun o' ho' => ?_⟩
    · rw [hchans, effects_length, List.length_set]
      exact h.len
    · rw [hchans, List.getElem?_set] at hc'
      split at hc'
      · next heq =>
        split at hc'
        · cases hc'
          rw [hown.localId, ← heq]
          exact h.ids o c hc
        · cases hc'
      · exact h.ids o' c' hc'
    · have hi' := effects_getCh hi
      exact h.slots i k hi'
    · rw [hincoming]
      exact h.incoming
    · rw [hincoming, hchans, List.length_set]
      exact h.queued
    · rw [hchans, List.length_set] at ho'
      have hne : o' ≠ o := by
        have ho := (List.getElem?_eq_some_iff.mp hc).1
        omega
      have hview := h.view_enter hc hcall o'
      rw [enter_some hc, if_neg hne] at hview
      exact ⟨(congrArg View.log hview).trans (h.fresh o' ho').1,
        (congrArg View.settled hview).trans (h.fresh o' ho').2⟩

/-- The loop of `close` shuts down the channels of the table. -/
theorem Numbered.shutdownAll (h : s.Numbered) (ids : List Nat) (hids : ids.Nodup) :
    (s.shutdownAll ids).Numbered ∧ (s.shutdownAll ids).chans.length = s.chans.length ∧
      (s.shutdownAll ids).incoming = s.incoming ∧
      ∀ o, (s.shutdownAll ids).view o =
        if o ∈ ids ∧ (s.view o).listed = true then (s.view o).enter .shutdown else s.view o := by
  induction ids generalizing s with
  | nil => exact ⟨h, rfl, rfl, fun o => by rw [if_neg (by simp)]; rfl⟩
  | cons id ids ih =>
    obtain ⟨hid, hids⟩ := List.nodup_cons.mp hids
    rw [Session.shutdownAll]
    cases hg : s.getCh id with
    | none =>
      obtain ⟨h1, h2, h3, h4⟩ := ih h hids
      refine ⟨h1, h2, h3, fun o => (h4 o).trans ?_⟩
      by_cases heq : o = id
      · have hl : ¬ (s.view o).listed = true := by simp [view, heq, hg]
        rw [if_neg (fun hc => hl hc.2), if_neg (fun hc => hl hc.2)]
      · simp only [List.mem_cons, heq, false_or]
    | some k =>
      have hk := h.slots id k hg
      subst hk
      have hlt : id < s.chans.length := by
        rw [h.len]
        exact (List.getElem?_eq_some_iff.mp (Option.join_eq_some_iff.mp hg)).1
      obtain ⟨c, hc⟩ : ∃ c, s.chans[id]? = some c := ⟨_, List.getElem?_eq_getElem hlt⟩
      obtain ⟨f1, f2, -⟩ := enter_frame s id .shutdown
      have hshutdown : Call.For id .shutdown := trivial
      obtain ⟨h1, h2, h3, h4⟩ := ih (h.enter hshutdown) hids
      refine ⟨h1, h2.trans f1, h3.trans f2, fun o => ?_⟩
      have hview := h.view_enter hc hshutdown o
      rw [h4 o, hview]
      by_cases heq : o = id
      · have hl : (s.view o).listed = true := by simp [view, heq, hg]
        rw [if_pos heq, if_neg (fun hm => hid (heq ▸ hm.1)),
          if_pos ⟨List.mem_cons.mpr (.inl heq), hl⟩, heq]
      · rw [if_neg heq]
        simp only [List.mem_cons, heq, false_or]

theorem Numbered.close (h : s.Numbered) :
    s.close.Numbered ∧ s.close.chans.length = s.chans.length ∧ s.close.incoming = s.incoming ∧
      ∀ o, s.close.view o = (s.view o).shut := by
  obtain ⟨h1, h2, h3, h4⟩ := h.shutdownAll (List.range s.channels.length) List.nodup_range
  refine ⟨⟨h1.len, h1.ids, h1.slots, h1.incoming, h1.queued, h1.fresh⟩, h2, h3, fun o => ?_⟩
  have hview : s.close.view o
      = { (s.shutdownAll (List.range s.channels.length)).view o with closed := true } := rfl
  rw [hview, h4 o, View.shut]
  by_cases hl : (s.view o).listed = true
  · have hlt : o < s.channels.length := by
      have hg : s.getCh o = some o := by simpa [view] using hl
      exact (List.getElem?_eq_some_iff.mp (Option.join_eq_some_iff.mp hg)).1
    rw [if_pos ⟨List.mem_range.mpr hlt, hl⟩, if_pos hl]
  · rw [if_neg (fun hc => hl hc.2), if_neg hl]

/-! ## What the steps do to a view -/

/-- The method that a step enters, and of which channel. -/
def target (s : Session) : Act → Option (Nat × Call)
  | .read o len => some (o, .read s.calls len)
  | .write o buf => some (o, .write buf)
  | .closeWrite o => some (o, .closeWrite)
  | .close o => some (o, .close s.calls)
  | .resume i => s.tasks[i]?.map fun t => (t.1, .resume t.2)
  | .decoded (.ok (.openMsg ..)) => none
  | .decoded (.ok m) => (s.getCh m.channelID).map fun o => (o, .handle s.calls m)
  | _ => none

/-- The steps that close the session. -/
def closes : Act → Bool
  | .closeSession => true
  | .decoded (.error .ended) => true
  | _ => false

/-- How a step changes the view of a channel. -/
inductive Changes (s s' : Session) (a : Act) (o : Nat) : Prop where
  | same (h : s'.view o = s.view o)
  | enter (call : Call) (ht : s.target a = some (o, call)) (hcall : call.For o)
      (h : s'.view o = (s.view o).enter call)
  | shut (hc : closes a = true) (h : s'.view o = (s.view o).shut)
  | accepted (p : Nat) (ha : a = .accept)
      (h : s'.view o = { s.view o with settled := (s.view o).settled ++ [(p, .channel)] })

/-- The view of a channel that `open` makes. -/
def outboundView (s : Session) : View where
  ch := s.outbound
  listed := true
  log := [.sent (.openMsg s.outbound.localId s.outbound.myWindow s.outbound.maxIncomingPayload)]
  settled := []
  closed := s.closed

/-- The view of a channel that `handleOpen` makes, for the promise of an `accept` if one waits. -/
def inboundView (s : Session) (senderID windowSize maxPacketSize : Nat) (waiter : Option Nat) : View :=
  let ch := s.inbound senderID windowSize maxPacketSize
  { ch
    listed := true
    log := [.got (.openMsg senderID windowSize maxPacketSize),
            .sent (.openConfirm ch.remoteId ch.localId ch.myWindow ch.maxIncomingPayload)]
    settled := waiter.toList.map (fun p => (p, .channel))
    closed := s.closed }

/-- What a step does to the table, if anything: it may make a channel. -/
inductive Grows (s s' : Session) (a : Act) : Prop where
  | same (h : s'.chans.length = s.chans.length)
  | outbound (ha : a = .openChannel) (h : s'.chans.length = s.chans.length + 1)
      (hv : s'.view s.chans.length = s.outboundView)
  | inbound (senderID windowSize maxPacketSize : Nat) (waiter : Option Nat)
      (ha : a = .decoded (.ok (.openMsg senderID windowSize maxPacketSize)))
      (hmax : Channel.minPacketLength ≤ maxPacketSize)
      (h : s'.chans.length = s.chans.length + 1)
      (hv : s'.view s.chans.length = s.inboundView senderID windowSize maxPacketSize waiter)

theorem exists_chan (ho : o < s.chans.length) : ∃ c, s.chans[o]? = some c :=
  ⟨_, List.getElem?_eq_getElem ho⟩

/-- What a step does to every view and to the table. -/
structure Steps (s s' : Session) (a : Act) : Prop where
  numbered : s'.Numbered
  changes : ∀ o, o < s.chans.length → Changes s s' a o
  grows : Grows s s' a
  closing : ∀ o p, (o, .closeSent p) ∈ s'.tasks →
    (o, .closeSent p) ∈ s.tasks ∨ (o < s.chans.length ∧ (s'.view o).ch.sentClose = true)

/-- The parts of a state that say which channels there are. -/
structure SameTable (s s' : Session) : Prop where
  chans : s'.chans = s.chans
  channels : s'.channels = s.channels
  incoming : s'.incoming = s.incoming
  closed : s'.closed = s.closed
  settled : s'.settled = s.settled
  log : s'.log = s.log
  tasks : ∀ x ∈ s'.tasks, x ∈ s.tasks

theorem SameTable.view (h : SameTable s s') (o : Nat) : s'.view o = s.view o := by
  rw [Session.view, Session.view, getCh, getCh, h.chans, h.channels, h.closed, h.settled, h.log]

theorem SameTable.numbered (h : SameTable s s') (hs : s.Numbered) : s'.Numbered where
  len := by rw [h.chans, h.channels]; exact hs.len
  ids := by rw [h.chans]; exact hs.ids
  slots := by
    intro i o hi
    rw [getCh, h.channels] at hi
    exact hs.slots i o hi
  incoming := by rw [h.incoming]; exact hs.incoming
  queued := by rw [h.incoming, h.chans]; exact hs.queued
  fresh := by rw [h.chans, h.log, h.settled]; exact hs.fresh

/-- A step that only enters a channel. -/
theorem Numbered.steps_enter (h : s.Numbered) {a : Act} {k : Nat} {call : Call} {s1 : Session}
    (ht : s.target a = some (k, call)) (hcall : call.For k) (hs1 : SameTable s s1)
    (hs' : SameTable (s1.enter k call).1 s') : Steps s s' a where
  numbered := hs'.numbered ((hs1.numbered h).enter hcall)
  changes o ho := by
    by_cases hk : k < s1.chans.length
    · obtain ⟨c, hc⟩ := exists_chan hk
      have hv := (hs1.numbered h).view_enter hc hcall o
      rw [hs1.view, hs1.view, ← hs'.view] at hv
      by_cases heq : o = k
      · subst heq
        rw [if_pos rfl] at hv
        exact .enter call ht hcall hv
      · rw [if_neg heq] at hv
        exact .same hv
    · have hnone : s1.chans[k]? = none := List.getElem?_eq_none (Nat.le_of_not_lt hk)
      have hv := hs'.view o
      rw [Session.enter, hnone, hs1.view] at hv
      exact .same hv
  grows := .same (by rw [hs'.chans, (enter_frame s1 k call).1, hs1.chans])
  closing o p hp := by
    rcases enter_tasks (hs'.tasks _ hp) with hp | ⟨ho, hk, hp⟩
    · exact .inl (hs1.tasks _ hp)
    · obtain ⟨c, hc⟩ := exists_chan hk
      have hv := (hs1.numbered h).view_enter hc hcall k
      rw [if_pos rfl] at hv
      rw [hs1.chans] at hk
      rw [show o = k from ho, hs'.view, hv, View.enter_eq]
      exact .inr ⟨hk, Channel.later_enter hp⟩

/-- A new channel leaves the others as they are. -/
theorem Numbered.addCh (h : s.Numbered) {ch : Chan} (hid : ch.localId = s.channels.length)
    {incoming : Queue Nat Nat} {loop : Loop} {tasks : List (Nat × Task)} {calls : Nat}
    (hopen : incoming.closed = false) (hqueued : ∀ o ∈ incoming.q, o < s.chans.length + 1)
    (es : List Entry) (vs : List (Nat × Value)) {s' : Session}
    (hs' : s' = { s.addCh ch with
      incoming, loop, tasks, calls
      settled := s.settled ++ vs.map (fun v => (some s.chans.length, v))
      log := s.log ++ es.map (fun e => (some s.chans.length, e)) }) :
    s'.Numbered ∧ s'.chans.length = s.chans.length + 1 ∧
      (∀ o, o < s.chans.length → s'.view o = s.view o) ∧
      s'.view s.chans.length = { ch, listed := true, log := es, settled := vs, closed := s.closed } := by
  have hlen := h.len
  have hget : ∀ i, s'.getCh i = if i = s.chans.length then some s.chans.length else s.getCh i := by
    intro i
    rw [hs', getCh, getCh, Session.addCh]
    simp only [List.getElem?_append, hlen]
    rcases Nat.lt_trichotomy i s.channels.length with hi | rfl | hi
    · rw [if_pos hi, if_neg (Nat.ne_of_lt hi)]
    · simp
    · rw [if_neg (by omega), if_neg (by omega), List.getElem?_eq_none (by simp; omega),
        List.getElem?_eq_none (Nat.le_of_lt hi)]
  have hother : ∀ o, o ≠ s.chans.length → mine o s'.log = mine o s.log ∧
      mine o s'.settled = mine o s.settled := by
    intro o ho
    rw [hs']
    simp only [mine_append, mine_map, Option.some.injEq, if_neg (Ne.symm ho), List.append_nil,
      and_self]
  have hchans : s'.chans = s.chans ++ [ch] := by rw [hs']; rfl
  refine ⟨⟨?_, ?_, ?_, ?_, ?_, ?_⟩, ?_, ?_, ?_⟩
  · rw [hs']
    simp [Session.addCh, hlen]
  · intro o c hc
    rw [hchans, List.getElem?_append] at hc
    split at hc
    · exact h.ids o c hc
    · have ho : o = s.chans.length := by
        have := (List.getElem?_eq_some_iff.mp hc).1
        simp at this
        omega
      rw [ho, Nat.sub_self] at hc
      cases hc
      rw [hid, ho, hlen]
  · intro i o hi
    rw [hget] at hi
    split at hi
    · next heq =>
      cases hi
      exact heq
    · exact h.slots i o hi
  · rw [hs']
    exact hopen
  · rw [hchans, hs', List.length_append]
    exact hqueued
  · intro o ho
    rw [hchans, List.length_append, List.length_singleton] at ho
    obtain ⟨h1, h2⟩ := hother o (by omega)
    obtain ⟨h3, h4⟩ := h.fresh o (by omega)
    exact ⟨h1.trans h3, h2.trans h4⟩
  · rw [hchans, List.length_append]
    rfl
  · intro o ho
    obtain ⟨h1, h2⟩ := hother o (by omega)
    have hclosed : s'.closed = s.closed := by rw [hs']; rfl
    rw [Session.view, Session.view, h1, h2, hget, if_neg (by omega), hchans, hclosed,
      List.getElem?_append_left ho]
  · obtain ⟨h3, h4⟩ := h.fresh s.chans.length (Nat.le_refl _)
    rw [Session.view, hget, if_pos rfl, hs']
    simp only [mine_append, mine_map, if_true, h3, h4, List.nil_append]
    simp [Session.addCh]

theorem SameTable.refl (s : Session) : SameTable s s :=
  ⟨rfl, rfl, rfl, rfl, rfl, rfl, fun _ h => h⟩

theorem same_promise (s : Session) : SameTable s s.promise :=
  ⟨rfl, rfl, rfl, rfl, rfl, rfl, fun _ h => h⟩

theorem same_loop (s : Session) (loop : Loop) : SameTable s { s with loop } :=
  ⟨rfl, rfl, rfl, rfl, rfl, rfl, fun _ h => h⟩

theorem same_erase (s : Session) (i : Nat) : SameTable s { s with tasks := s.tasks.eraseIdx i } :=
  ⟨rfl, rfl, rfl, rfl, rfl, rfl, fun _ h => List.mem_of_mem_eraseIdx h⟩

theorem SameTable.steps (h : SameTable s s') (hs : s.Numbered) (a : Act) : Steps s s' a where
  numbered := h.numbered hs
  changes o _ := .same (h.view o)
  grows := .same (by rw [h.chans])
  closing _ _ hp := .inl (h.tasks _ hp)

theorem Numbered.steps_openChannel (h : s.Numbered) : Steps s s.openChannel .openChannel := by
  have hs' : s.openChannel = { s.addCh s.outbound with
      incoming := s.incoming, loop := s.loop, tasks := s.tasks ++ [(s.chans.length, .opened s.calls)]
      calls := s.calls + 1
      settled := s.settled ++ ([] : List (Nat × Value)).map (fun v => (some s.chans.length, v))
      log := s.log ++ [Entry.sent (.openMsg s.outbound.localId s.outbound.myWindow
        s.outbound.maxIncomingPayload)].map (fun e => (some s.chans.length, e)) } := by
    rw [List.map_nil, List.append_nil]
    rfl
  obtain ⟨h1, h2, h3, h4⟩ :=
    h.addCh rfl h.incoming (fun o ho => Nat.lt_succ_of_lt (h.queued o ho)) _ _ hs'
  refine ⟨h1, fun o ho => .same (h3 o ho), .outbound rfl h2 h4, fun o p hp => ?_⟩
  rw [openChannel, List.mem_append, List.mem_singleton] at hp
  rcases hp with hp | hp
  · exact .inl hp
  · cases hp

/-- Where `push` leaves the object: it is queued, or the first waiter has it. -/
theorem push_queued {incoming incoming' : Queue Nat Nat} {o : Nat} {waiter : Option Nat}
    (hp : incoming.push o = some (incoming', waiter)) :
    incoming'.closed = false ∧ ∀ k ∈ incoming'.q, k = o ∨ k ∈ incoming.q := by
  rw [Queue.push] at hp
  split at hp
  · cases hp
  · next hc =>
    split at hp
    · cases hp
      exact ⟨Bool.eq_false_iff.mpr hc, fun k hk => .inr hk⟩
    · cases hp
      refine ⟨Bool.eq_false_iff.mpr hc, fun k hk => ?_⟩
      rw [List.mem_append, List.mem_singleton] at hk
      exact hk.symm

/-- An OpenMessage that is accepted. -/
theorem handleOpen_accepted (senderID windowSize : Nat) {maxPacketSize : Nat} {incoming : Queue Nat Nat}
    {waiter : Option Nat} (hmax : ¬ maxPacketSize < Channel.minPacketLength)
    (hp : s.incoming.push s.chans.length = some (incoming, waiter)) :
    s.handleOpen senderID windowSize maxPacketSize =
      { s.addCh (s.inbound senderID windowSize maxPacketSize) with
        incoming, loop := s.loop, tasks := s.tasks, calls := s.calls
        settled := s.settled ++
          (waiter.toList.map (fun p => (p, Value.channel))).map (fun v => (some s.chans.length, v))
        log := s.log ++ [Entry.got (.openMsg senderID windowSize maxPacketSize),
          .sent (.openConfirm senderID s.channels.length channelWindowSize
            channelMaxPacket)].map (fun e => (some s.chans.length, e)) } := by
  rw [handleOpen, if_neg hmax]
  dsimp only
  rw [hp, List.map_map]
  rfl

theorem Numbered.steps_handleOpen (h : s.Numbered) (senderID windowSize maxPacketSize : Nat) :
    Steps s (s.handleOpen senderID windowSize maxPacketSize)
      (.decoded (.ok (.openMsg senderID windowSize maxPacketSize))) := by
  by_cases hmax : maxPacketSize < Channel.minPacketLength
  · rw [handleOpen, if_pos hmax]
    -- an OpenFailure is about no channel
    have hview : ∀ o, ({ s with log := s.log ++ [(none, Entry.sent (.openFailure senderID))] } :
        Session).view o = s.view o := by
      intro o
      simp only [view, mine_append, mine_single, reduceCtorEq, if_false, List.append_nil]
      rfl
    refine ⟨⟨h.len, h.ids, h.slots, h.incoming, h.queued, fun o ho => ?_⟩, fun o _ => .same (hview o),
      .same rfl, fun _ _ hp => .inl hp⟩
    exact ⟨(congrArg View.log (hview o)).trans (h.fresh o ho).1, (h.fresh o ho).2⟩
  · cases hp : s.incoming.push s.chans.length with
    | none =>
      rw [Queue.push, h.incoming] at hp
      simp only [Bool.false_eq_true, if_false] at hp
      split at hp <;> cases hp
    | some res =>
      obtain ⟨incoming, waiter⟩ := res
      obtain ⟨hopen, hqueued⟩ := push_queued hp
      have hq : ∀ o ∈ incoming.q, o < s.chans.length + 1 := by
        intro o ho
        rcases hqueued o ho with rfl | hold
        · exact Nat.lt_succ_self _
        · exact Nat.lt_succ_of_lt (h.queued o hold)
      have heq := handleOpen_accepted senderID windowSize hmax hp
      obtain ⟨h1, h2, h3, h4⟩ := h.addCh rfl hopen hq _ _ heq
      refine ⟨h1, fun o ho => .same (h3 o ho),
        .inbound senderID windowSize maxPacketSize waiter rfl (Nat.le_of_not_lt hmax) h2 h4, ?_⟩
      intro o p hp
      rw [heq] at hp
      exact .inl hp

/-- A call of `accept` waits, or takes the first channel of `incoming`. -/
theorem accept_cases (hopen : s.incoming.closed = false) :
    (s.incoming.q = [] ∧ s.accept = { s with
      incoming := { s.incoming with waiters := s.incoming.waiters ++ [s.calls] }
      calls := s.calls + 1 }) ∨
    ∃ o q, s.incoming.q = o :: q ∧ s.accept = { s with
      incoming := { s.incoming with q }
      calls := s.calls + 1
      settled := s.settled ++ [(some o, s.calls, .channel)] } := by
  rw [accept, Queue.shift, if_neg (by rw [hopen]; exact Bool.false_ne_true)]
  cases hq : s.incoming.q with
  | nil =>
    dsimp only
    exact .inl ⟨rfl, by rw [hq]⟩
  | cons o q => exact .inr ⟨o, q, rfl, rfl⟩

theorem Numbered.steps_accept (h : s.Numbered) : Steps s s.accept .accept := by
  rcases accept_cases h.incoming with ⟨hq, heq⟩ | ⟨o, q, hq, heq⟩
  · rw [heq]
    exact ⟨⟨h.len, h.ids, h.slots, h.incoming, h.queued, h.fresh⟩, fun _ _ => .same rfl, .same rfl,
      fun _ _ hp => .inl hp⟩
  · have hqueued := h.queued
    rw [hq] at hqueued
    have ho := hqueued o List.mem_cons_self
    rw [heq]
    refine ⟨⟨h.len, h.ids, h.slots, h.incoming, fun k hk => hqueued k (List.mem_cons_of_mem o hk),
      fun k hk => ⟨(h.fresh k hk).1, ?_⟩⟩, fun k hk => ?_, .same rfl, fun _ _ hp => .inl hp⟩
    · have hne : o ≠ k := by
        have hk' : s.chans.length ≤ k := hk
        omega
      rw [mine_append, (h.fresh k hk).2, mine_single, if_neg (by simpa using hne)]
      rfl
    · by_cases hko : k = o
      · refine .accepted s.calls rfl ?_
        rw [view, view]
        simp only [mine_append, mine_single, hko, if_true]
        rfl
      · refine .same ?_
        rw [view, view]
        simp only [mine_append, mine_single, Option.some.injEq, if_neg (Ne.symm hko), List.append_nil]
        rfl

theorem Numbered.steps_close (h : s.Numbered) {a : Act} (hc : closes a = true)
    (hs' : SameTable s.close s') : Steps s s' a := by
  obtain ⟨h1, h2, h3, h4⟩ := h.close
  refine ⟨hs'.numbered h1, fun o _ => .shut hc ((hs'.view o).trans (h4 o)), .same ?_, ?_⟩
  · rw [hs'.chans, h2]
  · intro o p hp
    exact .inl (shutdownAll_tasks (hs'.tasks _ hp))

theorem target_ok {m : Message} (hm : m.isOpen = false) :
    s.target (.decoded (.ok m)) = (s.getCh m.channelID).map fun o => (o, .handle s.calls m) := by
  cases m with
  | openMsg senderID windowSize maxPacketSize => cases hm
  | _ => rfl

/-- Which steps enter a channel, and how. -/
theorem target_cases {a : Act} {call : Call} (h : s.target a = some (o, call)) :
    (∃ len, a = .read o len ∧ call = .read s.calls len) ∨
    (∃ buf, a = .write o buf ∧ call = .write buf) ∨
    (a = .closeWrite o ∧ call = .closeWrite) ∨
    (a = .close o ∧ call = .close s.calls) ∨
    (∃ i t, a = .resume i ∧ (o, t) ∈ s.tasks ∧ call = .resume t) ∨
    ∃ m, a = .decoded (.ok m) ∧ m.isOpen = false ∧ s.getCh m.channelID = some o ∧
      call = .handle s.calls m := by
  cases a with
  | read o' len =>
    cases h
    exact .inl ⟨len, rfl, rfl⟩
  | write o' buf =>
    cases h
    exact .inr (.inl ⟨buf, rfl, rfl⟩)
  | closeWrite o' =>
    cases h
    exact .inr (.inr (.inl ⟨rfl, rfl⟩))
  | close o' =>
    cases h
    exact .inr (.inr (.inr (.inl ⟨rfl, rfl⟩)))
  | resume i =>
    rw [target] at h
    obtain ⟨x, hx, he⟩ := Option.map_eq_some_iff.mp h
    cases he
    exact .inr (.inr (.inr (.inr (.inl ⟨i, x.2, rfl, List.mem_of_getElem? hx, rfl⟩))))
  | decoded res =>
    cases res with
    | error e => cases h
    | ok m =>
      have hm : m.isOpen = false := by
        cases m with
        | openMsg senderID windowSize maxPacketSize => cases h
        | _ => rfl
      rw [target_ok hm] at h
      obtain ⟨k, hk, he⟩ := Option.map_eq_some_iff.mp h
      cases he
      exact .inr (.inr (.inr (.inr (.inr ⟨m, rfl, hm, hk, rfl⟩))))
  | _ => cases h

theorem loopStep_ok {m : Message} (hm : m.isOpen = false) :
    s.loopStep (.ok m) =
      match s.getCh m.channelID with
      | none => { s with loop := .threw }
      | some o =>
        match s.promise.enter o (.handle s.calls m) with
        | (s, none) => s
        | (s, some _) => { s with loop := .threw } := by
  cases m with
  | openMsg senderID windowSize maxPacketSize => cases hm
  | _ => rfl

/-- A message for a channel. -/
theorem Numbered.steps_message (h : s.Numbered) {m : Message} (hm : m.isOpen = false) :
    Steps s (s.loopStep (.ok m)) (.decoded (.ok m)) := by
  have htarget := target_ok (s := s) hm
  rw [loopStep_ok hm]
  cases hg : s.getCh m.channelID with
  | none => exact (same_loop s .threw).steps h _
  | some o =>
    rw [hg] at htarget
    have ho : m.channelID = o := h.slots _ _ hg
    dsimp only
    cases he : s.promise.enter o (.handle s.calls m) with
    | mk s1 err =>
      have hs1 : s1 = (s.promise.enter o (.handle s.calls m)).1 := by rw [he]
      cases err with
      | none => exact h.steps_enter htarget ho (same_promise s) (hs1 ▸ .refl _)
      | some e => exact h.steps_enter htarget ho (same_promise s) (hs1 ▸ same_loop s1 .threw)

/-- What every step does. -/
theorem Numbered.steps (h : s.Numbered) {a : Act} (hs : s.step a = some s') : Steps s s' a := by
  have hcall : ∀ {o call}, s.target a = some (o, call) → call.For o → s.callOn o call = some s' →
      Steps s s' a := by
    intro o call ht hfor hs
    rw [callOn] at hs
    split at hs
    · cases hs
      exact h.steps_enter ht hfor (same_promise s) (.refl _)
    · cases hs
  cases a with
  | openChannel =>
    cases hs
    exact h.steps_openChannel
  | accept =>
    cases hs
    exact h.steps_accept
  | closeSession =>
    cases hs
    exact h.steps_close rfl (.refl _)
  | read o len => exact hcall rfl trivial hs
  | write o buf => exact hcall rfl trivial hs
  | closeWrite o => exact hcall rfl trivial hs
  | close o => exact hcall rfl trivial hs
  | resume i =>
    rw [step] at hs
    cases ht : s.tasks[i]? with
    | none =>
      rw [ht] at hs
      cases hs
    | some t =>
      obtain ⟨o, t⟩ := t
      rw [ht] at hs
      cases hs
      have htarget : s.target (.resume i) = some (o, .resume t) := by rw [target, ht]; rfl
      exact h.steps_enter htarget trivial (same_erase s i) (.refl _)
  | decoded res =>
    rw [step] at hs
    split at hs
    · cases hs
      cases res with
      | error e =>
        cases e with
        | ended => exact h.steps_close rfl (same_loop s.close .returned)
        | _ => exact (same_loop s .threw).steps h _
      | ok m =>
        cases m with
        | openMsg senderID windowSize maxPacketSize =>
          exact h.steps_handleOpen senderID windowSize maxPacketSize
        | _ => exact h.steps_message rfl
    · cases hs

theorem numbered_new : new.Numbered where
  len := rfl
  ids o c h := by cases h
  slots i o h := by cases h
  incoming := rfl
  queued o h := by cases h
  fresh o _ := ⟨rfl, rfl⟩

variable {ok : Session → Act → Prop}

theorem Run.numbered (run : Run step ok new s) : s.Numbered :=
  run.invariant numbered_new fun _ _ _ _ h _ hs => (h.steps hs).numbered

/-- **What new channels have and every change keeps, every channel has in every run.** -/
theorem view_invariant {I : View → Prop}
    (outbound : ∀ s, ok s .openChannel → I s.outboundView)
    (inbound : ∀ s senderID windowSize maxPacketSize waiter,
      ok s (.decoded (.ok (.openMsg senderID windowSize maxPacketSize))) →
      Channel.minPacketLength ≤ maxPacketSize →
      I (s.inboundView senderID windowSize maxPacketSize waiter))
    (enter : ∀ s a o call, Run step ok new s → ok s a → s.target a = some (o, call) → call.For o →
      I (s.view o) → I ((s.view o).enter call))
    (shut : ∀ s a o, ok s a → closes a = true → I (s.view o) → I (s.view o).shut)
    (accepted : ∀ (s : Session) (o p : Nat), I (s.view o) →
      I { s.view o with settled := (s.view o).settled ++ [(p, .channel)] })
    (run : Run step ok new s) (ho : o < s.chans.length) : I (s.view o) := by
  induction run generalizing o with
  | start => cases ho
  | @step s s' a run hok hs ih =>
    obtain ⟨-, hchanges, hgrows, -⟩ := (Run.numbered run).steps hs
    have old : o < s.chans.length → I (s'.view o) := by
      intro ho
      cases hchanges o ho with
      | same h => exact h ▸ ih ho
      | enter call ht hcall h => exact h ▸ enter s a o call run hok ht hcall (ih ho)
      | shut hc h => exact h ▸ shut s a o hok hc (ih ho)
      | accepted p ha h => exact h ▸ accepted s o p (ih ho)
    cases hgrows with
    | same h => exact old (h ▸ ho)
    | outbound ha h hv =>
      by_cases heq : o = s.chans.length
      · subst ha
        rw [heq, hv]
        exact outbound s hok
      · exact old (by omega)
    | inbound senderID windowSize maxPacketSize waiter ha hmax h hv =>
      by_cases heq : o = s.chans.length
      · subst ha
        rw [heq, hv]
        exact inbound s _ _ _ _ hok hmax
      · exact old (by omega)

end Session

end Qtalk.Js
