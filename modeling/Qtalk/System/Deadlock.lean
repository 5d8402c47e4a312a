import Mathlib.Data.List.Pairwise
import Qtalk.System.Pipes

/-!
# Two loops in each other's way

The loop of a session is the only reader of its connection and writes its answers itself,
behind the encoder's lock. `demand` counts the bytes that have to fit into the transport
before it is back at `Decode` if the other side reads nothing. A side whose demand is more
than the transport holds is stuck until the other loop reads; two such sides stay as they
are for ever (`deadlocked_iff`). Small buffers make it happen: both loops take up an answer
at a time when neither has room for it.
-/

namespace Qtalk.Mux
open Qtalk.Codec Qtalk.Lib

def Encoding.size (g : Encoding) : Nat := bytes g.packet.msg

/-- The loop with operations `ops` in hand waits for this goroutine, or is it: it holds the
`writeMu` that the answer to a CloseMessage needs. -/
def Encoding.ahead (ops : List LoopOp) (g : Encoding) : Bool :=
  g.loop ||
    match ops with
    | .reply c :: _ => g.mu = some c
    | _ => false

def LoopOp.isPublish : LoopOp → Bool
  | .publish _ => true
  | _ => false

namespace Endpoint

/-- The bytes of the packets in the queue for the encoder that the loop waits for. -/
def queued (e : Endpoint) (ops : List LoopOp) : Nat :=
  ((e.waiting.filter (Encoding.ahead ops)).map Encoding.size).sum

/-- The bytes that have to fit into the transport before the loop, with `ops` in hand, is
done with its answer. -/
def demand (e : Endpoint) (ops : List LoopOp) : Nat :=
  e.pipe + e.left + e.queued ops + e.session.owed ops

/-- The loop, with `ops` in hand, has an answer to send: it is inside `Encode`, about to
call it, or waiting for `writeMu`. -/
def Answering (e : Endpoint) (ops : List LoopOp) : Prop :=
  e.inside.any (Encoding.ahead ops) = true ∨ 0 < e.session.owed ops

instance (e : Endpoint) (ops : List LoopOp) : Decidable (e.Answering ops) :=
  inferInstanceAs (Decidable (_ ∨ _))

/-- The loop does not get its answer out while the other side reads nothing. -/
def Stalls (C : Nat) (e : Endpoint) : Prop :=
  e.Answering e.session.ops ∧ C < e.demand e.session.ops

instance (C : Nat) (e : Endpoint) : Decidable (e.Stalls C) := inferInstanceAs (Decidable (_ ∧ _))

/-- The transport has room for what the loop's answer needs after an event: where the loop
takes up an answer, where another goroutine gets the encoder before it, and where one
sends on the channel whose CloseMessage it is to answer. -/
def Fits (C : Nat) (e : Endpoint) : Event → Prop
  | .act (.call c a) =>
    e.session.ops.head? = some (.reply c) ∧ (e.session.heap c).sentClose = false →
      e.demand e.session.ops + a.size ≤ C
  | .act (.loop _) =>
    e.session.ops.head?.any LoopOp.isPublish = true → e.demand e.session.ops.tail ≤ C
  | .lock k =>
    ∀ g ∈ e.waiting[k]?, g.ahead e.session.ops = false → e.Answering e.session.ops →
      e.demand e.session.ops + g.size ≤ C
  | .packet p => e.Answering (e.session.takes p.msg) → e.demand (e.session.takes p.msg) ≤ C
  | _ => True

instance (C : Nat) (e : Endpoint) (v : Event) : Decidable (e.Fits C v) := by
  unfold Fits
  split <;> infer_instance

/-! ## How a side gets stuck -/

variable {C : Nat} {e e' : Endpoint} {ops : List LoopOp}

theorem ahead_of_plain (h : ∀ op ∈ ops, op.plain = true) (g : Encoding) : g.ahead ops = g.loop := by
  cases ops with
  | nil => simp [Encoding.ahead]
  | cons op ops =>
    have hop := h op List.mem_cons_self
    cases op with
    | reply c => cases hop
    | _ => simp [Encoding.ahead]

theorem not_answering (ha : ∀ g ∈ e.inside, g.ahead ops = false) (ho : e.session.owed ops = 0) :
    ¬ e.Answering ops := by
  rintro (h | h)
  · obtain ⟨g, hg, hgo⟩ := List.any_eq_true.mp h
    rw [ha g hg] at hgo
    cases hgo
  · omega

theorem queued_eq_zero (ha : ∀ g ∈ e.waiting, g.ahead ops = false) : e.queued ops = 0 := by
  have hnil : e.waiting.filter (Encoding.ahead ops) = [] :=
    List.filter_eq_nil_iff.mpr fun g hg => by simp [ha g hg]
  rw [queued, hnil]
  rfl

/-- With the encoder empty the loop can only be stuck by an answer that is still to come. -/
theorem answering_of_demand (hl : e.left = 0) (hp : e.pipe ≤ C) (hd : C < e.demand ops) :
    e.Answering ops := by
  by_contra hn
  have hahead : ∀ g ∈ e.waiting, g.ahead ops = false := by
    intro g hg
    by_contra hgo
    refine hn (.inl (List.any_eq_true.mpr ⟨g, ?_, by simpa using hgo⟩))
    exact List.mem_append_left _ hg
  have howed : e.session.owed ops = 0 := by
    by_contra hne
    exact hn (.inr (Nat.pos_of_ne_zero hne))
  have hq := queued_eq_zero hahead
  unfold demand at hd
  omega

/-- Nobody is ahead of a loop that takes a step. -/
theorem ready_ahead {ok : Bool} (hr : e.ready (.loop ok) = true) :
    ∀ g ∈ e.inside, g.ahead e.session.ops = false := by
  have hloop := encoding_eq_false.mp (ready_loop hr rfl)
  have hfree : ∀ c, e.session.needs (.loop ok) = some c → e.free c = true := fun c hc => ready_free hr hc
  intro g hg
  have hg' := hloop g hg
  cases ho : e.session.ops with
  | nil => simp [Encoding.ahead, hg']
  | cons op ops =>
    cases op with
    | reply c =>
      have hmu := free_iff.mp (hfree c (by simp [Session.needs, ho])) g hg
      simp [Encoding.ahead, hg', hmu]
    | _ => simp [Encoding.ahead, hg']

/-- A step that hands nothing to the encoder. -/
theorem acted_nil (e : Endpoint) (a : Session.Act) (s : Session) :
    e.acted a s [] = { e with session := s } := by
  simp [acted]

theorem queued_acted (e : Endpoint) (a : Session.Act) (s : Session) (p : Packet) (ops : List LoopOp) :
    (e.acted a s [p]).queued ops = e.queued ops +
      if Encoding.ahead ops ⟨p, a.isLoop, e.session.needs a⟩ then bytes p.msg else 0 := by
  simp only [queued, acted, List.map_cons, List.map_nil, List.filter_append, List.map_append,
    List.sum_append, List.filter_cons, List.filter_nil]
  split <;> simp [Encoding.size]

theorem head?_eq_some {op : LoopOp} (h : ops.head? = some op) : ∃ rest, ops = op :: rest := by
  cases ops with
  | nil => cases h
  | cons op' rest =>
    cases h
    exact ⟨rest, rfl⟩

theorem loop_stalls (h : e.Inv C) {s : Session} {out : List Packet} (hr : e.ready (.loop true) = true)
    (ht : Session.Trans e.session (.loop true) s out) :
    (e.acted (.loop true) s out).Stalls C ↔ e.Stalls C ∨ ¬ e.Fits C (.act (.loop true)) := by
  have halone := ready_ahead hr
  have hloop := encoding_eq_false.mp (ready_loop hr rfl)
  have hfits : (∀ c ops, e.session.ops ≠ .publish c :: ops) → e.Fits C (.act (.loop true)) := by
    intro hp hpub
    cases ho : e.session.ops with
    | nil =>
      rw [ho] at hpub
      cases hpub
    | cons op rest =>
      rw [ho] at hpub
      cases op with
      | publish c => exact absurd ho (hp c rest)
      | _ => cases hpub
  cases h.plans.handsOver ht with
  | @published c hout ho ho' hh =>
    subst hout
    have hno : ¬ e.Stalls C := fun hs => not_answering halone (by rw [ho]; rfl) hs.1
    have hdemand : (e.acted (.loop true) s []).demand s.ops = e.demand [.confirm c] := by
      have howed : s.owed s.ops = e.session.owed s.ops :=
        Session.owed_congr fun c' rest hc' => by rw [hh]
      rw [acted_nil, ← ho']
      unfold demand
      rw [howed]
      rfl
    have hfit : e.Fits C (.act (.loop true)) ↔ e.demand [.confirm c] ≤ C := by
      simp [Fits, ho, LoopOp.isPublish]
    rw [hfit, Nat.not_le, ← hdemand]
    refine ⟨fun hs => .inr hs.2, fun hs => ⟨.inr ?_, hs.resolve_left hno⟩⟩
    rw [acted_session, ho']
    exact bytes_pos _
  | nothing hout hn hp ho' =>
    subst hout
    have hno : ¬ e.Stalls C := fun hs => not_answering halone hn hs.1
    have hans : ¬ ({ e with session := s } : Endpoint).Answering s.ops := by
      refine not_answering (fun g hg => ?_) (s.owed_plain ho')
      rw [ahead_of_plain ho' g]
      exact hloop g hg
    rw [acted_nil]
    exact iff_of_false (fun hs => hans hs.1) (not_or.mpr ⟨hno, not_not.mpr (hfits hp)⟩)
  | @answer p hout hb hrun hp ho' =>
    subst hout
    have hplain : ∀ op ∈ s.ops, op.plain = true := by
      rcases ho' with ⟨hnil, -⟩ | ⟨c, id, -, hops⟩
      · rw [hnil]
        nofun
      · rw [hops]
        exact List.forall_mem_cons.mpr ⟨rfl, closeOps_plain c⟩
    have hqueued : e.queued e.session.ops = 0 :=
      queued_eq_zero fun g hg => halone g (List.mem_append_left _ hg)
    have hqueued' : e.queued s.ops = 0 := by
      refine queued_eq_zero fun g hg => ?_
      rw [ahead_of_plain hplain g]
      exact hloop g (List.mem_append_left _ hg)
    have hdemand : (e.acted (.loop true) s [p]).demand s.ops = e.demand e.session.ops := by
      unfold demand
      rw [queued_acted, ahead_of_plain hplain, hqueued, hqueued', acted_session, s.owed_plain hplain, ← hb]
      simp [acted, Session.Act.isLoop]
    have hans : e.Answering e.session.ops := .inr (hb ▸ bytes_pos _)
    have hans' : (e.acted (.loop true) s [p]).Answering s.ops := by
      refine .inl (List.any_eq_true.mpr ⟨⟨p, true, e.session.needs (.loop true)⟩, ?_, rfl⟩)
      simp [inside, acted, Session.Act.isLoop]
    have hiff : (e.acted (.loop true) s [p]).Stalls C ↔ e.Stalls C := by
      unfold Stalls
      rw [acted_session, hdemand]
      exact and_congr_left fun _ => iff_of_true hans' hans
    rw [hiff]
    exact (or_iff_left (not_not.mpr (hfits hp))).symm

/-- What a goroutine of the application hands over counts if the loop waits for it. -/
theorem stalls_acted {a : Session.Act} {s : Session} {p : Packet} (ho : s.ops = e.session.ops)
    (ha : a.isLoop = false) :
    (e.acted a s [p]).Stalls C ↔
      (Encoding.ahead e.session.ops ⟨p, false, e.session.needs a⟩ = true ∨
          e.inside.any (Encoding.ahead e.session.ops) = true ∨ 0 < s.owed e.session.ops) ∧
        C < e.pipe + e.left + (e.queued e.session.ops +
          if Encoding.ahead e.session.ops ⟨p, false, e.session.needs a⟩ then bytes p.msg else 0) +
            s.owed e.session.ops := by
  have hany := (e.acted_inside a s [p]).any_eq (f := Encoding.ahead e.session.ops)
  unfold Stalls Answering demand
  rw [acted_session, ho, queued_acted, hany, ha]
  simp [acted, or_assoc]

theorem owed_reply_pos {c : Nat} (hr : e.session.ops.head? = some (.reply c))
    (hc : (e.session.heap c).sentClose = false) : e.session.owed e.session.ops = 5 := by
  obtain ⟨rest, ho⟩ := head?_eq_some hr
  rw [ho, Session.owed_reply, if_neg (by simp [hc])]

/-- Where the bytes of a call do not count, the room is missing already. -/
theorem stalls_of_not_fits {a : Session.Act} (ha : a.isLoop = false)
    (hsize : ∀ c b, a = .call c b → (e.session.heap c).sentClose = false → b.size = 0)
    (hf : ¬ e.Fits C (.act a)) : e.Stalls C := by
  cases a with
  | call c b =>
    simp only [Fits, Classical.not_imp, Nat.not_le] at hf
    obtain ⟨⟨hr, hc⟩, hlt⟩ := hf
    rw [hsize c b rfl hc] at hlt
    exact ⟨.inr (by rw [owed_reply_pos hr hc]; decide), hlt⟩
  | loop => cases ha
  | _ => exact absurd trivial hf

theorem size_of_locks {b : Channel.Step} (hb : b.locks = false) : b.size = 0 := by
  cases b with
  | sendAdjust | sendEOF | close => cases hb
  | _ => rfl

theorem ahead_other {p : Packet} {c : Nat} (hc : ops.head? ≠ some (.reply c)) :
    Encoding.ahead ops ⟨p, false, some c⟩ = false := by
  cases ops with
  | nil => rfl
  | cons op rest =>
    cases op with
    | reply c' =>
      have hne : c ≠ c' := by
        rintro rfl
        exact hc rfl
      simp [Encoding.ahead, hne]
    | _ => rfl

theorem ahead_reply {p : Packet} {c : Nat} (hc : ops.head? = some (.reply c)) :
    Encoding.ahead ops ⟨p, false, some c⟩ = true := by
  obtain ⟨rest, rfl⟩ := head?_eq_some hc
  simp [Encoding.ahead]

theorem call_stalls (h : e.Inv C) {a : Session.Act} {s : Session} {out : List Packet}
    (hr : e.ready a = true) (ha : a.isLoop = false) (ht : Session.Trans e.session a s out) :
    (e.acted a s out).Stalls C ↔ e.Stalls C ∨ ¬ e.Fits C (.act a) := by
  have ho := (ready_frame hr ht ha).1
  have hlisted : ∀ c rest, e.session.ops = .reply c :: rest → c < e.session.fresh := by
    intro c rest hc
    exact (h.session.ops (.reply c) (by rw [hc]; exact List.mem_cons_self)).1
  have hsound := ready_sound hr
  have hcalls := Session.Calls.of_trans ht (fun r hr => by rw [hr] at hsound; cases hsound)
    (fun ok hok => by rw [hok] at ha; cases ha)
  -- nothing changes for the loop
  have hsame : ∀ p, Encoding.ahead e.session.ops ⟨p, false, e.session.needs a⟩ = false →
      s.owed e.session.ops = e.session.owed e.session.ops → ((e.acted a s [p]).Stalls C ↔ e.Stalls C) := by
    intro p hahead howed
    rw [stalls_acted ho ha, hahead, howed]
    simp [Stalls, Answering, demand]
  cases hcalls with
  | nothing hout hs hc =>
    subst hout
    have howed : s.owed e.session.ops = e.session.owed e.session.ops :=
      Session.owed_congr fun c rest hc => hs c (hlisted c rest hc)
    have hiff : (e.acted a s []).Stalls C ↔ e.Stalls C := by
      rw [acted_nil]
      unfold Stalls Answering demand
      rw [show ({ e with session := s } : Endpoint).session.ops = e.session.ops from ho, howed]
      rfl
    rw [hiff]
    refine (or_iff_left_of_imp fun hf => stalls_of_not_fits ha (fun c b hb hsc => ?_) hf).symm
    cases hl : b.locks with
    | false => exact size_of_locks hl
    | true =>
      rw [hc c b hb hl] at hsc
      cases hsc
  | @data p hout hn hl hs =>
    subst hout
    rw [hsame p (by rw [hn]; cases e.session.ops with | nil => rfl | cons op _ => cases op <;> rfl)
      (Session.owed_congr fun c rest hc => hs c (hlisted c rest hc))]
    refine (or_iff_left_of_imp fun hf => stalls_of_not_fits ha (fun c b hb _ => ?_) hf).symm
    exact size_of_locks (hl c b hb)
  | @control c b p ha' hl hout hb hc hs =>
    subst hout ha'
    have hneeds : e.session.needs (.call c b) = some c := by simp [Session.needs, hl]
    have howed : s.owed e.session.ops = e.session.owed e.session.ops :=
      Session.owed_congr fun c' rest hc' => hs c' (hlisted c' rest hc')
    by_cases hhead : e.session.ops.head? = some (.reply c)
    · have hfive := owed_reply_pos hhead hc
      rw [stalls_acted ho ha, hneeds, ahead_reply hhead, howed, hb]
      simp [Stalls, Answering, demand, Fits, hhead, hc, hfive]
      omega
    · rw [hsame p (by rw [hneeds, ahead_other hhead]) howed]
      refine (or_iff_left (not_not.mpr fun hf => absurd hf.1 hhead)).symm
  | @close c p ha' hout hb hc hc' hs =>
    subst hout ha'
    by_cases hhead : e.session.ops.head? = some (.reply c)
    · have hfive := owed_reply_pos hhead hc
      obtain ⟨rest, hrest⟩ := head?_eq_some hhead
      have hzero : s.owed e.session.ops = 0 := by
        rw [hrest, Session.owed_reply, if_pos hc']
      rw [stalls_acted ho ha, show e.session.needs (.call c .close) = some c from rfl,
        ahead_reply hhead, hzero, hb]
      simp [Stalls, Answering, demand, Fits, hhead, hc, hfive, Channel.Step.size, Nat.add_assoc]
    · have howed : s.owed e.session.ops = e.session.owed e.session.ops := by
        refine Session.owed_congr fun c' rest hrest => hs c' ?_
        rintro rfl
        exact hhead (by rw [hrest]; rfl)
      rw [hsame p (by rw [show e.session.needs (.call c .close) = some c from rfl, ahead_other hhead]) howed]
      refine (or_iff_left (not_not.mpr fun hf => absurd hf.1 hhead)).symm

/-- A loop that reads has no answer to send. -/
theorem Reading.not_stalls (h : e.Reading) : ¬ e.Stalls C := by
  obtain ⟨-, ho, henc⟩ := h
  refine fun hs => not_answering (fun g hg => ?_) (by rw [ho]; rfl) hs.1
  rw [ho]
  simpa [Encoding.ahead] using encoding_eq_false.mp henc g hg

theorem packet_stalls {p : Packet} {s : Session} (hr : e.Reading)
    (ht : Session.Trans e.session (.recv (.ok p.msg)) s []) :
    ({ e with session := s, got := 0 } : Endpoint).Stalls C ↔ e.Stalls C ∨ ¬ e.Fits C (.packet p) := by
  rw [or_iff_right hr.not_stalls]
  have hloop := encoding_eq_false.mp hr.2.2
  have hiff : ∀ ops, Encoding.ahead s.ops = Encoding.ahead ops → s.owed s.ops = e.session.owed ops →
      e.session.takes p.msg = ops →
      (({ e with session := s, got := 0 } : Endpoint).Stalls C ↔ ¬ e.Fits C (.packet p)) := by
    intro ops hahead howed htakes
    simp only [Stalls, Answering, demand, queued, inside, Fits, hahead, howed, htakes,
      Classical.not_imp, Nat.not_le]
  cases ht.takes with
  | nothing htakes ho hrep =>
    refine hiff [] (funext fun g => ?_) ho htakes
    cases hops : s.ops with
    | nil => rfl
    | cons op ops =>
      cases op with
      | reply c => exact absurd hops (hrep c ops)
      | _ => rfl
  | @reject id htakes ho => exact hiff [.reject id] (by rw [ho]) (by rw [ho]; rfl) htakes
  | @reply c ops htakes ho hs =>
    refine hiff [.reply c] (by rw [ho]; rfl) ?_ htakes
    rw [ho, Session.owed_reply, Session.owed_reply, hs]

theorem lock_stalls (h : e.Inv C) {k : Nat} {g : Encoding} (hw : e.writing = none)
    (hk : e.waiting[k]? = some g) :
    (e.locked k g).Stalls C ↔ e.Stalls C ∨ ¬ e.Fits C (.lock k) := by
  have hleft := h.idle hw
  have hany := (locked_inside hw hk).any_eq (f := Encoding.ahead e.session.ops)
  have hqueued : e.queued e.session.ops = (e.locked k g).queued e.session.ops +
      if g.ahead e.session.ops then g.size else 0 := by
    obtain ⟨hlt, rfl⟩ := List.getElem?_eq_some_iff.mp hk
    have hperm := ((List.getElem_cons_eraseIdx_perm hlt).filter (Encoding.ahead e.session.ops)).map Encoding.size
    rw [queued, ← hperm.sum_eq, List.filter_cons]
    split <;> simp [queued, locked, Nat.add_comm]
  have hdemand : (e.locked k g).demand e.session.ops =
      e.demand e.session.ops + if g.ahead e.session.ops then 0 else g.size := by
    simp only [demand, hqueued, hleft, locked_session]
    simp only [locked]
    split <;> simp only [Encoding.size] <;> omega
  have hans : (e.locked k g).Answering e.session.ops ↔ e.Answering e.session.ops := by
    unfold Answering
    rw [hany]
    rfl
  have hfits : e.Fits C (.lock k) ↔ (g.ahead e.session.ops = false → e.Answering e.session.ops →
      e.demand e.session.ops + g.size ≤ C) := by
    simp [Fits, hk]
  unfold Stalls
  rw [locked_session, hans, hdemand, hfits]
  cases hg : g.ahead e.session.ops with
  | true => simp
  | false =>
    simp only [Bool.false_eq_true, if_false, true_implies, Classical.not_imp, Nat.not_le, ← and_or_left]
    refine and_congr_right fun _ => ?_
    omega

theorem put_stalls (hl : 0 < e.left) :
    ({ e with left := e.left - 1, pipe := e.pipe + 1 } : Endpoint).Stalls C ↔ e.Stalls C := by
  have hdemand : ({ e with left := e.left - 1, pipe := e.pipe + 1 } : Endpoint).demand e.session.ops =
      e.demand e.session.ops := by
    simp only [demand, queued]
    omega
  unfold Stalls
  rw [hdemand]
  rfl

/-- The answer that gets out is not stuck. -/
theorem unlock_stalls (h : e.Inv C) (hl : e.left = 0) :
    ({ e with writing := none } : Endpoint).Stalls C ↔ e.Stalls C := by
  have hdemand : ({ e with writing := none } : Endpoint).demand e.session.ops = e.demand e.session.ops := rfl
  unfold Stalls
  rw [hdemand]
  refine and_congr_left fun hd => iff_of_true ?_ ?_
  · exact answering_of_demand (e := { e with writing := none }) hl h.fits hd
  · exact answering_of_demand hl h.fits hd

/-- A side gets stuck only by an event that does not fit, and stays stuck until the other
side reads. -/
theorem stalls_iff (h : e.Inv C) {v : Event} (hm : Moves C e v e') (hv : v ≠ .give) :
    e'.Stalls C ↔ e.Stalls C ∨ ¬ e.Fits C v := by
  have hsame : e.Fits C v → (e.Stalls C ↔ e.Stalls C ∨ ¬ e.Fits C v) := fun hf =>
    (or_iff_left (not_not.mpr hf)).symm
  cases hm with
  | @act a s out hr hs ht =>
    cases ha : a.isLoop with
    | false => exact call_stalls h hr ha ht
    | true =>
      cases a with
      | loop ok =>
        obtain rfl : ok = true := ready_sound hr
        exact loop_stalls h hr ht
      | _ => cases ha
  | lock hw hk => exact lock_stalls h hw hk
  | put hl hp => exact (put_stalls hl).trans (hsame trivial)
  | unlock hw hl => exact (unlock_stalls h hl).trans (hsame trivial)
  | givePipe | giveLeft => exact absurd rfl hv
  | get hr => exact hsame trivial
  | packet hr hs ht => exact packet_stalls hr ht

theorem give_stalls (hm : Moves C e .give e') (hs : e'.Stalls C) : e.Stalls C := by
  obtain ⟨ha, hd⟩ := hs
  cases hm with
  | givePipe hp =>
    refine ⟨ha, Nat.lt_of_lt_of_le hd ?_⟩
    simp only [demand, queued]
    omega
  | giveLeft hp hl =>
    refine ⟨ha, Nat.lt_of_lt_of_le hd ?_⟩
    simp only [demand, queued]
    omega

/-! ## How a side gets on -/

/-- The operations of a CloseMessage behind the answer: none of them waits for a queue. -/
def Closing (c : Nat) (ops : List LoopOp) : Prop :=
  ∀ op ∈ ops, op = .eof c ∨ op = .closeMsg c ∨ op = .markClosed c ∨ op = .closeWin c ∨ ∃ id, op = .remove id

theorem closing_close (id : UInt32) (c : Nat) : Closing c (.remove id :: closeOps c) := by
  unfold Closing
  simp [closeOps]

/-- What a loop that answers has in hand until it reads again. -/
inductive InHand (e : Endpoint) : List LoopOp → Prop where
  | confirm (c : Nat) : InHand e [.confirm c]
  | reject (id : UInt32) : InHand e [.reject id]
  | reply {c : Nat} {ops : List LoopOp} (h : Closing c ops) : InHand e (.reply c :: ops)
  /-- only the loop itself can hold the `writeMu` that is still needed -/
  | closing {c : Nat} {ops : List LoopOp} (h : Closing c ops)
      (hmu : .markClosed c ∈ ops → ∀ g ∈ e.inside, g.mu = some c → g.loop = true) : InHand e ops

theorem InHand.nil (e : Endpoint) : InHand e [] :=
  .closing (c := 0) (by simp [Closing]) (by simp)

theorem InHand.keep (h : InHand e ops) (hi : ∀ g ∈ e'.inside, g ∈ e.inside) : InHand e' ops := by
  cases h with
  | confirm c => exact .confirm c
  | reject id => exact .reject id
  | reply h => exact .reply h
  | closing h hmu => exact .closing h fun hm g hg => hmu hm g (hi g hg)

/-- The loop is on its way back to `Decode` and needs nobody to read. -/
structure Returning (C : Nat) (e : Endpoint) : Prop where
  running : e.session.running = true
  room : ¬ e.Stalls C
  ops : InHand e e.session.ops

/-- How much there is to do. -/
def rank (e : Endpoint) : Nat :=
  40 * e.session.ops.length + (e.waiting.map fun g => g.size + 2).sum + e.left +
    if e.writing = none then 0 else 1

theorem mu_inj (h : e.Inv C) {g g' : Encoding} (hg : g ∈ e.inside) (hg' : g' ∈ e.inside) {c : Nat}
    (hc : g.mu = some c) (hc' : g'.mu = some c) : g = g' := by
  have hp := List.pairwise_filterMap.mp h.mutex
  by_contra hne
  have hsymm : Std.Symm fun a a' : Encoding => ∀ b, a.mu = some b → ∀ b', a'.mu = some b' → b ≠ b' :=
    ⟨fun a a' hr b hb b' hb' heq => hr b' hb' b hb heq.symm⟩
  exact hp.forall hg hg' hne c hc c hc' rfl

/-- A loop that answers and is not stuck is on its way back. -/
theorem Returning.of_answering (h : e.Inv C) (ha : e.Answering e.session.ops) (hs : ¬ e.Stalls C) :
    e.Returning C := by
  have hshape := h.plans.shape
  have hhead : 0 < e.session.owed e.session.ops ∨ (∃ c rest, e.session.ops = .reply c :: rest) →
      e.Returning C := by
    intro hor
    cases ho : e.session.ops with
    | nil =>
      rw [ho] at hor
      simp [Session.owed] at hor
    | cons op rest =>
      rw [ho] at hor hshape
      cases op with
      | confirm c =>
        refine ⟨h.plans.running ho rfl, hs, ?_⟩
        rw [ho, show rest = [] from hshape]
        exact .confirm c
      | reject id =>
        refine ⟨h.plans.running ho rfl, hs, ?_⟩
        rw [ho, show rest = [] from hshape]
        exact .reject id
      | reply c =>
        obtain ⟨id, rfl⟩ := hshape
        refine ⟨h.plans.running ho rfl, hs, ?_⟩
        rw [ho]
        exact .reply (closing_close id c)
      | _ => simp [Session.owed] at hor
  rcases ha with ha | ha
  · obtain ⟨g, hg, hahead⟩ := List.any_eq_true.mp ha
    cases hl : g.loop with
    | false =>
      refine hhead (.inr ?_)
      cases ho : e.session.ops with
      | nil => simp [Encoding.ahead, hl, ho] at hahead
      | cons op rest =>
        cases op with
        | reply c => exact ⟨c, rest, rfl⟩
        | _ => simp [Encoding.ahead, hl, ho] at hahead
    | true =>
      obtain ⟨hrun, ho | ⟨c, id, hc, ho⟩⟩ := h.rest g hg hl
      · refine ⟨hrun, hs, ?_⟩
        rw [ho]
        exact .nil e
      · refine ⟨hrun, hs, ?_⟩
        rw [ho]
        refine .closing (closing_close id c) fun _ g' hg' hc' => ?_
        rw [mu_inj h hg' hg hc' hc]
        exact hl
  · exact hhead (.inl ha)

theorem owed_le (s : Session) (ops : List LoopOp) : s.owed ops ≤ 17 := by
  cases ops with
  | nil => exact Nat.zero_le 17
  | cons op ops =>
    cases op with
    | confirm c => exact Nat.le_of_eq (bytes_openConfirm _)
    | reject id => exact Nat.le_trans (Nat.le_of_eq (bytes_openFailure _)) (by decide)
    | reply c =>
      rw [Session.owed_reply]
      split <;> decide
    | _ => exact Nat.zero_le 17

/-- The encoder gets on with what the loop waits for. -/
theorem Returning.encode (h : e.Inv C) (hr : e.Returning C)
    (ha : e.inside.any (Encoding.ahead e.session.ops) = true) :
    ∃ v e', v.own = true ∧ e.next C v = some e' ∧ e'.Returning C ∧ e'.rank < e.rank := by
  have hroom : e.demand e.session.ops ≤ C := Nat.le_of_not_lt fun hlt => hr.room ⟨.inl ha, hlt⟩
  by_cases hl : 0 < e.left
  · have hp : e.pipe < C := by
      unfold demand at hroom
      omega
    refine ⟨.put, _, rfl, if_pos ⟨hl, hp⟩, ⟨hr.running, (put_stalls hl).not.mpr hr.room, ?_⟩, ?_⟩
    · exact hr.ops.keep fun g hg => hg
    · simp only [rank]
      omega
  · have hl : e.left = 0 := by omega
    cases hw : e.writing with
    | some g =>
      refine ⟨.unlock, { e with writing := none }, rfl, ?_, ⟨hr.running, ?_, ?_⟩, ?_⟩
      · simp [next, hw, hl]
      · exact (unlock_stalls h hl).not.mpr hr.room
      · refine hr.ops.keep fun g hg => ?_
        exact List.mem_append_left _ (by simpa [inside] using hg)
      · simp [rank, hw]
    | none =>
      have hinside : e.inside = e.waiting := by simp [inside, hw]
      rw [hinside] at ha
      obtain ⟨g, hg, hahead⟩ := List.any_eq_true.mp ha
      obtain ⟨k, hlt, hk⟩ := List.getElem_of_mem hg
      have hk' : e.waiting[k]? = some g := by rw [List.getElem?_eq_getElem hlt, hk]
      refine ⟨.lock k, e.locked k g, rfl, ?_, ⟨hr.running, ?_, ?_⟩, ?_⟩
      · simp [next, hw, hk']
      · rw [lock_stalls h hw hk']
        refine not_or.mpr ⟨hr.room, not_not.mpr fun g' hg' hno => ?_⟩
        rw [hk'] at hg'
        cases hg'
        rw [hahead] at hno
        cases hno
      · exact hr.ops.keep fun g' hg' => (locked_inside hw hk').mem_iff.mp hg'
      · have hperm := (List.getElem_cons_eraseIdx_perm hlt).map fun g : Encoding => g.size + 2
        simp only [rank, ← hperm.sum_eq, locked, hw, hl, List.map_cons, List.sum_cons, hk, if_true,
          reduceCtorEq, if_false]
        simp only [Encoding.size]
        omega

theorem not_loop {g : Encoding} {ops : List LoopOp} (h : g.ahead ops = false) : g.loop = false := by
  simp only [Encoding.ahead, Bool.or_eq_false_iff] at h
  exact h.1

/-- None of them waits for a queue, and the loop goes on behind each. -/
theorem InHand.plain {op : LoopOp} {rest : List LoopOp} (h : InHand e (op :: rest)) :
    (∀ c, op ≠ .publish c) ∧ (∀ c m, op ≠ .queue c m) ∧ op ≠ .dropAll ∧ op ≠ .connClose := by
  cases h with
  | confirm | reject | reply => simp
  | closing hcl =>
    obtain rfl | rfl | rfl | rfl | ⟨id, rfl⟩ := hcl op List.mem_cons_self <;> simp

/-- Nobody inside the encoder has the lock that the operation takes. -/
theorem InHand.ready {op : LoopOp} {rest : List LoopOp} (h : InHand e (op :: rest))
    (ho : e.session.ops = op :: rest) (hahead : ∀ g ∈ e.inside, g.ahead e.session.ops = false) :
    e.ready (.loop true) = true := by
  have hfree : ∀ c, e.session.needs (.loop true) = some c → e.free c = true := by
    intro c hc
    refine free_iff.mpr fun g hg hmu => ?_
    have hno := hahead g hg
    cases h with
    | confirm | reject => simp [Session.needs, ho] at hc
    | reply =>
      obtain rfl : _ = c := by simpa [Session.needs, ho] using hc
      rw [ho] at hno
      simp [Encoding.ahead, hmu] at hno
    | closing hcl hheld =>
      obtain rfl | rfl | rfl | rfl | ⟨id, rfl⟩ := hcl op List.mem_cons_self
      all_goals try (simp [Session.needs, ho] at hc; done)
      obtain rfl : _ = c := by simpa [Session.needs, ho] using hc
      have hown := hheld List.mem_cons_self g hg hmu
      rw [not_loop hno] at hown
      cases hown
  have hhead : e.session.ops.head? ≠ some .connClose := by
    rw [ho]
    simpa using h.plain.2.2.2
  have henc := encoding_eq_false.mpr fun g hg => not_loop (hahead g hg)
  cases hn : e.session.needs (.loop true) with
  | none => simp [Endpoint.ready, hn, Session.Act.sound, Session.Act.isLoop, henc, hhead]
  | some c => simp [Endpoint.ready, hn, hfree c hn, Session.Act.sound, Session.Act.isLoop, henc, hhead]

/-- What is left in hand when the loop has done the first. -/
theorem InHand.rest {op : LoopOp} {rest : List LoopOp} (h : InHand e (op :: rest))
    (ho : e.session.ops = op :: rest) (hahead : ∀ g ∈ e.inside, g.ahead e.session.ops = false)
    (s : Session) (out : List Packet) : InHand (e.acted (.loop true) s out) rest := by
  cases h with
  | confirm | reject => exact .nil _
  | @reply c _ hcl =>
    refine .closing hcl fun _ g hg hmu => ?_
    rcases mem_acted hg with hold | ⟨p, -, rfl⟩
    · have hno := hahead g hold
      rw [ho] at hno
      simp [Encoding.ahead, hmu] at hno
    · rfl
  | @closing c _ hcl hheld =>
    refine .closing (fun op' hop' => hcl op' (List.mem_cons_of_mem op hop')) fun hm g hg hmu => ?_
    rcases mem_acted hg with hold | ⟨p, -, rfl⟩
    · exact hheld (List.mem_cons_of_mem op hm) g hold hmu
    · rfl

/-- An operation of the loop makes more of the rank than its packets add. -/
theorem acted_rank {op : LoopOp} {rest : List LoopOp} (ho : e.session.ops = op :: rest) {s : Session}
    {out : List Packet} (hops : s.ops = rest) (hout : (out.map fun p => bytes p.msg + 2).sum ≤ 19) :
    (e.acted (.loop true) s out).rank < e.rank := by
  have hsum : ((e.acted (.loop true) s out).waiting.map fun g => g.size + 2).sum =
      (e.waiting.map fun g => g.size + 2).sum + (out.map fun p => bytes p.msg + 2).sum := by
    simp [acted, Encoding.size, Function.comp_def]
  unfold rank
  rw [hsum, acted_session, hops, ho, List.length_cons]
  show 40 * rest.length + _ + e.left + (if e.writing = none then 0 else 1) < _
  omega

/-- The loop gets on with an operation that waits for nobody. -/
theorem Returning.work (h : e.Inv C) (hr : e.Returning C)
    (ha : e.inside.any (Encoding.ahead e.session.ops) = false) (hne : e.session.ops ≠ []) :
    ∃ v e', v.own = true ∧ e.next C v = some e' ∧ e'.Returning C ∧ e'.rank < e.rank := by
  have hahead : ∀ g ∈ e.inside, g.ahead e.session.ops = false := by
    simpa [List.any_eq_false] using ha
  obtain ⟨op, rest, ho⟩ := List.exists_cons_of_ne_nil hne
  have hinhand : InHand e (op :: rest) := ho ▸ hr.ops
  obtain ⟨hpub, hqueue, hdrop, -⟩ := hinhand.plain
  have hready := hinhand.ready ho hahead
  obtain ⟨⟨s, out⟩, hstep⟩ := Session.loop_step ho hpub hqueue h.sound h.unclosed
  have ht := Session.Trans.of_step hstep
  obtain ⟨hops, hrun⟩ := ht.pops ho hdrop
  have hfits : e.Fits C (.act (.loop true)) := by
    intro hp
    rw [ho] at hp
    cases op with
    | publish c => exact absurd rfl (hpub c)
    | _ => cases hp
  have hout : (out.map fun p => bytes p.msg + 2).sum ≤ 19 := by
    cases h.plans.handsOver ht with
    | published hnil | nothing hnil =>
      rw [hnil]
      exact Nat.zero_le 19
    | answer hone hb =>
      have hle := owed_le e.session e.session.ops
      rw [hone]
      simp only [List.map_cons, List.map_nil, List.sum_cons, List.sum_nil]
      omega
  refine ⟨.act (.loop true), e.acted (.loop true) s out, rfl, ?_, ⟨hrun.trans hr.running, ?_, ?_⟩,
    acted_rank ho hops hout⟩
  · simp [next, hready, hstep]
  · exact (loop_stalls h hready ht).not.mpr (not_or.mpr ⟨hr.room, not_not.mpr hfits⟩)
  · rw [acted_session, hops]
    exact hinhand.rest ho hahead s out

/-- One step back towards `Decode`. -/
theorem Returning.step (h : e.Inv C) (hr : e.Returning C) (hn : ¬ e.Reading) :
    ∃ v e', v.own = true ∧ e.next C v = some e' ∧ e'.Returning C ∧ e'.rank < e.rank := by
  cases ha : e.inside.any (Encoding.ahead e.session.ops) with
  | true => exact hr.encode h ha
  | false =>
    refine hr.work h ha fun ho => hn ⟨hr.running, ho, ?_⟩
    rw [ho] at ha
    refine encoding_eq_false.mpr fun g hg => ?_
    have hno := List.any_eq_false.mp ha g hg
    simpa [Encoding.ahead] using hno

end Endpoint

namespace Piped
open Endpoint (Event)

variable {C : Nat} {p p' : Piped}

/-- Both loops have an answer to send, and neither will read again. -/
def Deadlocked (C : Nat) (p : Piped) : Prop :=
  (∀ x, (p x).Answering (p x).session.ops) ∧
    ∀ p', Run (next C) anyStep p p' → ∀ x, ¬ (p' x).Reading

/-- Where the other loop is stuck, what happens at a side fits into the transport. -/
def Roomy (C : Nat) (p : Piped) : Act → Prop
  | .own x v => (p x.other).Stalls C → (p x).Fits C v
  | .read _ => True
  | .packet x => (p x.other).Stalls C → ∀ k ∈ (p x.other).wire.head?, (p x).Fits C (.packet k)

instance (C : Nat) (p : Piped) (a : Act) : Decidable (Roomy C p a) := by
  cases a with
  | own x v => exact inferInstanceAs (Decidable (_ → _))
  | read x => exact .isTrue trivial
  | packet x => exact inferInstanceAs (Decidable (_ → _))

/-- The side that a step belongs to, and what happens there that may not fit. -/
inductive Acts (p : Piped) : Act → Side → Event → Prop where
  | own {x : Side} {v : Event} : Acts p (.own x v) x v
  | packet {x : Side} {k : Packet} (hk : (p x.other).wire.head? = some k) : Acts p (.packet x) x (.packet k)

theorem roomy_iff {a : Act} :
    Roomy C p a ↔ ∀ x v, Acts p a x v → (p x.other).Stalls C → (p x).Fits C v := by
  constructor
  · intro h x v ha hs
    cases ha with
    | own => exact h hs
    | packet hk => exact h hs _ hk
  · intro h
    cases a with
    | own x v => exact h x v .own
    | read x => trivial
    | packet x => exact fun hs k hk => h x (.packet k) (.packet hk) hs

/-- Two loops that are stuck stay it. -/
theorem stuck_step (hi : ∀ z, (p z).Inv C) {a : Act} (hn : next C p a = some p') (hs : ∀ z, (p z).Stalls C) :
    ∀ z, (p' z).Stalls C := by
  intro z
  cases At.of_next hn z with
  | still hz => exact hz ▸ hs z
  | own ha hv hm =>
    refine (Endpoint.stalls_iff (hi z) hm ?_).mpr (.inl (hs z))
    rintro rfl
    cases hv
  | read ha hm => exact (Endpoint.stalls_iff (hi z) hm nofun).mpr (.inl (hs z))
  | packet ha hk hm => exact (Endpoint.stalls_iff (hi z) hm nofun).mpr (.inl (hs z))
  | give ha hr hm => exact absurd (hs z.other) hr.not_stalls
  | taken ha hr hz =>
    rw [hz]
    exact hs z

/-- A side that is stuck after a step was so before, or the step was its own and did not
fit. -/
theorem At.stalls_back {a : Act} {z : Side} (h : At C p p' a z) (hi : (p z).Inv C) (hs : (p' z).Stalls C) :
    (p z).Stalls C ∨ ∃ v, Acts p a z v ∧ ¬ (p z).Fits C v := by
  cases h with
  | still hz => exact .inl (hz ▸ hs)
  | own ha hv hm =>
    subst ha
    refine ((Endpoint.stalls_iff hi hm ?_).mp hs).imp_right fun hf => ⟨_, .own, hf⟩
    rintro rfl
    cases hv
  | read ha hm => exact .inl (((Endpoint.stalls_iff hi hm nofun).mp hs).resolve_right (not_not.mpr trivial))
  | packet ha hk hm =>
    subst ha
    exact ((Endpoint.stalls_iff hi hm nofun).mp hs).imp_right fun hf => ⟨_, .packet hk, hf⟩
  | give ha hr hm => exact .inl (Endpoint.give_stalls hm hs)
  | taken ha hr hz =>
    rw [hz] at hs
    exact .inl hs

/-- Both loops are stuck after a step only if they were before, or the step did not fit. -/
theorem stuck_back (hi : ∀ z, (p z).Inv C) {a : Act} (hn : next C p a = some p')
    (hs : ∀ z, (p' z).Stalls C) : (∀ z, (p z).Stalls C) ∨ ¬ Roomy C p a := by
  by_contra hcon
  obtain ⟨hboth, hroomy⟩ := not_or.mp hcon
  rw [not_not, roomy_iff] at hroomy
  refine hboth fun z => ((At.of_next hn z).stalls_back (hi z) (hs z)).resolve_right ?_
  rintro ⟨v, ha, hf⟩
  refine hf (hroomy z v ha ?_)
  -- the step is this side's, so the other one was stuck already
  refine ((At.of_next hn z.other).stalls_back (hi z.other) (hs z.other)).resolve_right ?_
  rintro ⟨v', ha', -⟩
  generalize hz : z.other = z' at ha'
  cases ha with
  | own => cases ha'; exact Side.other_ne z hz
  | packet => cases ha'; exact Side.other_ne z hz

/-- A step that does not fit gets both loops stuck. -/
theorem stuck_of_not_roomy (hi : ∀ z, (p z).Inv C) {a : Act} (hn : next C p a = some p')
    (hr : ¬ Roomy C p a) : ∀ z, (p' z).Stalls C := by
  rw [roomy_iff] at hr
  simp only [not_forall] at hr
  obtain ⟨x, v, ha, hother, hf⟩ := hr
  have hthis : (p' x).Stalls C ∧ (p' x.other).Stalls C := by
    cases ha with
    | own =>
      simp only [next, Option.ite_none_right_eq_some, Option.map_eq_some_iff] at hn
      obtain ⟨hv, e, he, rfl⟩ := hn
      have hstall : e.Stalls C := by
        refine (Endpoint.stalls_iff (hi x) (.of_next he) ?_).mpr (.inr hf)
        rintro rfl
        cases hv
      simpa using And.intro hstall hother
    | @packet _ k hk =>
      simp only [next, hk, bind, Option.bind_some, Option.bind_eq_some_iff, Option.some.injEq] at hn
      obtain ⟨e, he, rfl⟩ := hn
      have hstall : e.Stalls C := (Endpoint.stalls_iff (hi x) (.of_next he) (by simp)).mpr (.inr hf)
      simp only [put_same, put_other]
      exact ⟨hstall, hother⟩
  intro z
  rcases x.eq_or_other z with rfl | rfl
  · exact hthis.1
  · exact hthis.2

theorem stuck_iff (hi : ∀ z, (p z).Inv C) {a : Act} (hn : next C p a = some p') :
    (∀ z, (p' z).Stalls C) ↔ (∀ z, (p z).Stalls C) ∨ ¬ Roomy C p a :=
  ⟨stuck_back hi hn, fun h => h.elim (stuck_step hi hn) (stuck_of_not_roomy hi hn)⟩

theorem never_stuck (run : Run (next C) (Roomy C) start p) : ¬ ∀ z, (p z).Stalls C := by
  refine run.invariant (I := fun p => ¬ ∀ z, (p z).Stalls C) ?_ fun p a p' hr h hok hn hs => ?_
  · exact fun hs => Endpoint.Reading.not_stalls ⟨rfl, rfl, rfl⟩ (hs .left)
  · exact ((stuck_back (inv hr) hn hs).resolve_left h) hok

/-- A loop that needs nobody to read comes back. -/
theorem returns (run : Run (next C) anyStep start p) {x : Side} (hr : (p x).Returning C) :
    ∃ p', Run (next C) anyStep p p' ∧ (p' x).Reading := by
  induction hk : (p x).rank using Nat.strongRecOn generalizing p with
  | ind k ih =>
    by_cases hread : (p x).Reading
    · exact ⟨p, .start, hread⟩
    · obtain ⟨v, e, hv, hne, hret, hlt⟩ := hr.step (inv run x) hread
      have hn : next C p (.own x v) = some (Function.update p x e) := by
        simp [next, hv, hne]
      have hret' : (Function.update p x e x).Returning C := by simpa using hret
      have hlt' : (Function.update p x e x).rank < k := by simpa [← hk] using hlt
      obtain ⟨p', hrun, hdone⟩ := ih _ hlt' (run.step _ trivial hn) hret' rfl
      exact ⟨p', (Run.start.step _ trivial hn).trans hrun, hdone⟩

/-- Two loops are deadlocked if and only if both are stuck. -/
theorem deadlocked_iff (run : Run (next C) anyStep start p) :
    Deadlocked C p ↔ ∀ x, (p x).Stalls C := by
  constructor
  · rintro ⟨ha, hn⟩ x
    by_contra hs
    obtain ⟨p', hrun, hread⟩ := returns run (Endpoint.Returning.of_answering (inv run x) (ha x) hs)
    exact hn p' hrun x hread
  · intro hs
    refine ⟨fun x => (hs x).1, fun p' hrun x hread => ?_⟩
    have hstuck : ∀ z, (p' z).Stalls C := by
      refine hrun.invariant (I := fun p' => ∀ z, (p' z).Stalls C) hs fun q a q' hq h _ hn => ?_
      exact stuck_step (inv (run.trans hq)) hn h
    exact hread.not_stalls (hstuck x)

/-- In a run in which every step fits the loops are not deadlocked, and the next step
deadlocks them if and only if it does not fit. -/
theorem never_deadlocked (C : Nat) {p : Piped} (run : Run (next C) (Roomy C) start p) :
    ¬ Deadlocked C p ∧ ∀ a p', next C p a = some p' → (Deadlocked C p' ↔ ¬ Roomy C p a) := by
  constructor
  · rw [deadlocked_iff run.any]
    exact never_stuck run
  · intro a p' hn
    rw [deadlocked_iff (run.any.step a trivial hn), stuck_iff (inv run) hn]
    exact or_iff_right (never_stuck run)

/-- Both applications call `Open` at once; each loop gets the other's OpenMessage and takes
up the answer. Without a buffer the bytes go from hand to hand. -/
def crossedOpens : List Act :=
  let both (v : Event) : List Act := [.own .left v, .own .right v]
  both (.act .register) ++ both (.act (.call 0 (.sendOpen true))) ++ both (.lock 0) ++
    List.replicate 13 (.read .right) ++ List.replicate 13 (.read .left) ++ both .unlock ++
      [.packet .left, .packet .right]

/-- While the right loop writes its confirmation, the left one is about to publish the channel
and write its own: the step that deadlocks them. -/
theorem never_deadlocked_run : ∃ p, Run (next 0) (Roomy 0) start p ∧ (p .right).Stalls 0 ∧
    ¬ Deadlocked 0 p ∧
      ∃ p', next 0 p (.own .left (.act (.loop true))) = some p' ∧ Deadlocked 0 p' := by
  obtain ⟨p, run, hp⟩ := Run.of_exec (next 0) (Roomy 0) start
    (crossedOpens ++ [.own .right (.act (.loop true)), .own .right (.act (.loop true))])
    (fun p => decide ((p .right).Stalls 0 ∧ (next 0 p (.own .left (.act (.loop true)))).isSome = true ∧
      ¬ Roomy 0 p (.own .left (.act (.loop true))))) (by decide +kernel)
  simp only [decide_eq_true_eq] at hp
  obtain ⟨hstall, hnext, hroomy⟩ := hp
  obtain ⟨p', hn⟩ := Option.isSome_iff_exists.mp hnext
  obtain ⟨hnot, hdead⟩ := never_deadlocked 0 run
  exact ⟨p, run, hstall, hnot, p', hn, (hdead _ p' hn).mpr hroomy⟩

/-- Both loops are inside `enc.w.Write` with an OpenConfirm and neither reads again. -/
theorem crossed_opens_deadlock : ∃ p, Run (next 0) anyStep start p ∧
    (∀ x, ∃ g, (p x).writing = some g ∧ g.loop = true ∧ g.packet.msg.isConfirm = true) ∧
      Deadlocked 0 p := by
  obtain ⟨p, run, hp⟩ := Run.of_exec (next 0) anyStep start
    (crossedOpens ++ [.own .left (.act (.loop true)), .own .right (.act (.loop true)),
      .own .left (.act (.loop true)), .own .right (.act (.loop true)), .own .left (.lock 0), .own .right (.lock 0)])
    (fun p => decide (((p .left).Stalls 0 ∧ (p .right).Stalls 0) ∧
      (p .left).writing.any (fun g => g.loop && g.packet.msg.isConfirm) = true ∧
      (p .right).writing.any (fun g => g.loop && g.packet.msg.isConfirm) = true)) (by decide +kernel)
  simp only [decide_eq_true_eq, Option.any_eq_true, Bool.and_eq_true] at hp
  obtain ⟨⟨hl, hr⟩, hwl, hwr⟩ := hp
  refine ⟨p, run, fun x => ?_, (deadlocked_iff run).mpr fun x => ?_⟩
  · cases x with
    | left => exact hwl
    | right => exact hwr
  · cases x with
    | left => exact hl
    | right => exact hr

end Piped

end Qtalk.Mux
