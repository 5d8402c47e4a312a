import Qtalk.Lib.GoPath
import Qtalk.Lib.Runs
import Qtalk.Lib.Table

/-!
# Objects under a mount path

`ObjectManager` of `golang/rpc/object/objects.go`. The timestamp of `generateULID` is a constant,
and it is the seed of the entropy as well, so every object gets the id that the last one got. And
`Object` trims the mount path as it was given from a path that `Path` has cleaned.
-/

namespace Qtalk.Rpc.Objects
open Qtalk.Lib

/-- A string, by its bytes. -/
abbrev Str := List UInt8

def slash : UInt8 := 47

def dot : UInt8 := 46

/-- `math/rand` and `ulid`: a source is made from its seed, and an id from a timestamp and the
entropy; it is a text of digits and capital letters. -/
structure Ids where
  Source : Type
  newSource : Int → Source
  ulid : Nat → Source → Str
  plain : ∀ timestamp entropy, GoPath.Plain slash dot (ulid timestamp entropy)

/-- `time.Time`. -/
structure Time where
  sec : Nat
  nsec : Nat

def Time.UnixNano (t : Time) : Int := t.sec * 10 ^ 9 + t.nsec

/-- `ulid.Timestamp`, in milliseconds. -/
def Time.timestamp (t : Time) : Nat := t.sec * 1000 + t.nsec / 10 ^ 6

/-- `generateULID`. -/
def generateULID (ids : Ids) : Str :=
  let t : Time := ⟨1000000, 0⟩
  let entropy := ids.newSource t.UnixNano
  ids.ulid t.timestamp entropy

variable {V : Type}

structure ObjectManager (V : Type) where
  mountPath : Str
  values : Table Str V

/-- `object`, but for its manager. -/
structure ManagedObject (V : Type) where
  id : Str
  value : V
  deriving DecidableEq, Repr

structure ObjectHandle where
  ObjectPath : Str
  deriving DecidableEq, Repr

def NewObjectManager : ObjectManager V := { values := .empty, mountPath := [slash] }

/-- `object.Dispose`. -/
def ManagedObject.Dispose (o : ManagedObject V) (m : ObjectManager V) : ObjectManager V :=
  { m with values := m.values.erase o.id }

/-- `object.Path`. -/
def ManagedObject.Path (o : ManagedObject V) (m : ObjectManager V) : Str :=
  GoPath.join slash dot [m.mountPath, o.id]

/-- `object.Handle`. -/
def ManagedObject.Handle (o : ManagedObject V) (m : ObjectManager V) : ObjectHandle := ⟨o.Path m⟩

namespace ObjectManager

/-- `Mount`, but for the API it is mounted in. -/
def Mount (m : ObjectManager V) (path : Str) : ObjectManager V := { m with mountPath := path }

/-- `Object`; `id[0]` panics on an empty id. -/
def Object (m : ObjectManager V) (path : Str) : Except String (Option (ManagedObject V)) :=
  let id := GoPath.trimPrefix path m.mountPath
  if id = [] then .error "index out of range [0] with length 0"
  else
    let id := GoPath.unslash slash id
    .ok ((m.values.get? id).map fun v => ⟨id, v⟩)

/-- `Register`. -/
def Register (ids : Ids) (m : ObjectManager V) (v : V) : ObjectManager V × ManagedObject V :=
  let id := generateULID ids
  ({ m with values := m.values.set id v }, ⟨id, v⟩)

/-- `Handle`. -/
def Handle (ids : Ids) (m : ObjectManager V) (v : V) : ObjectManager V × ObjectHandle :=
  let (m, o) := m.Register ids v
  (m, o.Handle m)

/-- `ServeRPC`, as far as it finds the value that serves the call. -/
def ServeRPC (m : ObjectManager V) (ObjectPath : Str) : Except Str V :=
  let parts := ObjectPath.splitOn slash
  match m.values.get? (parts.getLastD []) with
  | some v => .ok v
  | none => .error ("object not registered: ".toUTF8.toList ++ ObjectPath)

end ObjectManager

/-- A manager with the objects registered so far, by the order of their registration, and the
numbers of those disposed. -/
structure Managed (V : Type) where
  manager : ObjectManager V
  registered : List (ManagedObject V) := []
  disposed : List Nat := []

inductive Op (V : Type) where
  | Register (v : V)
  | Handle (v : V)
  | Dispose (k : Nat)

namespace Managed

/-- A manager mounted at a path. -/
def start (mountPath : Str) : Managed V := { manager := NewObjectManager.Mount mountPath }

/-- Behind a `Handle` the object can be had by its path. -/
def step (ids : Ids) (s : Managed V) : Op V → Managed V
  | .Register v =>
    let (manager, o) := s.manager.Register ids v
    { s with manager, registered := s.registered ++ [o] }
  | .Handle v =>
    { s with
      manager := (s.manager.Handle ids v).1
      registered := s.registered ++ [(s.manager.Register ids v).2] }
  | .Dispose k =>
    match s.registered[k]? with
    | some o => { s with manager := o.Dispose s.manager, disposed := k :: s.disposed }
    | none => s

/-- Object `k` was registered and not disposed. -/
def Live (s : Managed V) (k : Nat) (o : ManagedObject V) : Prop :=
  s.registered[k]? = some o ∧ k ∉ s.disposed

/-- What holds of the live objects. -/
structure Kept (s : Managed V) : Prop where
  retrieved : ∀ k o, s.Live k o → s.manager.Object (o.Path s.manager) = .ok (some o)
  apart : ∀ j k o p, s.Live j o → s.Live k p → j ≠ k → o.Path s.manager ≠ p.Path s.manager
  undisturbed : ∀ j k o p, s.Live j o → s.Live k p → j ≠ k →
    (p.Dispose s.manager).Object (o.Path s.manager) = .ok (some o)

/-- An object is registered while no other is live, under a path it is found by, and what is disposed
already is disposed again only while none is live. -/
def Fits (s : Managed V) : Op V → Prop
  | .Register _ | .Handle _ => (∀ k o, ¬ s.Live k o) ∧ GoPath.Sound slash dot s.manager.mountPath
  | .Dispose k => k ∈ s.disposed → ∀ j o, ¬ s.Live j o

/-- At most one object is live, and the id, which is everybody's, is its. -/
structure Inv (ids : Ids) (s : Managed V) : Prop where
  sameId : ∀ o ∈ s.registered, o.id = generateULID ids
  sole : ∀ j k o p, s.Live j o → s.Live k p → j = k
  stored : ∀ k o, s.Live k o → s.manager.values.get? (generateULID ids) = some o.value
  sound : ∀ k o, s.Live k o → GoPath.Sound slash dot s.manager.mountPath
  disposed : ∀ k ∈ s.disposed, k < s.registered.length

/-! ## One object -/

section
variable {ids : Ids} {s : Managed V} {m : ObjectManager V} {o p : ManagedObject V} {k : Nat}

theorem slash_ne_dot : slash ≠ dot := by decide

theorem generateULID_plain (ids : Ids) : GoPath.Plain slash dot (generateULID ids) := ids.plain _ _

/-- An object found has the id that was left of the path, and is stored under it. -/
theorem of_object {path : Str} (h : m.Object path = .ok (some o)) :
    GoPath.unslash slash (GoPath.trimPrefix path m.mountPath) = o.id ∧
      m.values.get? o.id = some o.value := by
  rw [ObjectManager.Object] at h
  dsimp only at h
  split at h
  · cases h
  · obtain ⟨v, hv, rfl⟩ := Option.map_eq_some_iff.mp (Except.ok.inj h)
    exact ⟨rfl, hv⟩

/-- What `Path` gives is found exactly from a sound mount path. -/
theorem object_path_iff (hid : o.id = generateULID ids) :
    m.Object (o.Path m) = .ok (some o) ↔
      GoPath.Sound slash dot m.mountPath ∧ m.values.get? o.id = some o.value := by
  have hplain : GoPath.Plain slash dot o.id := hid ▸ generateULID_plain ids
  have htrim := GoPath.trim_join_iff slash_ne_dot hplain m.mountPath
  constructor
  · intro h
    obtain ⟨hleft, hstored⟩ := of_object h
    exact ⟨htrim.mp hleft, hstored⟩
  · rintro ⟨hsound, hstored⟩
    have hleft := htrim.mpr hsound
    have hne : GoPath.trimPrefix (o.Path m) m.mountPath ≠ [] := by
      intro hnil
      rw [ManagedObject.Path] at hnil
      rw [hnil] at hleft
      exact hplain.ne_nil hleft.symm
    rw [ObjectManager.Object]
    dsimp only
    rw [if_neg hne, ManagedObject.Path, hleft, hstored]
    rfl

/-- Every path leads `ServeRPC` to what is stored under the id. -/
theorem serveRPC_path (hid : o.id = generateULID ids) {v : V} (h : m.values.get? o.id = some v) :
    m.ServeRPC (o.Path m) = .ok v := by
  have hplain : GoPath.Plain slash dot o.id := hid ▸ generateULID_plain ids
  have hlast := GoPath.getLast?_splitOn_join slash_ne_dot hplain m.mountPath
  rw [ObjectManager.ServeRPC, ManagedObject.Path, List.getLastD_eq_getLast?, hlast]
  dsimp only [Option.getD]
  rw [h]

/-! ## The operations -/

/-- `Register` and `Handle` leave the same. -/
theorem step_register (ids : Ids) (s : Managed V) (v : V) (op : Op V)
    (hop : op = .Register v ∨ op = .Handle v) : s.step ids op =
      { s with
        manager := { s.manager with values := s.manager.values.set (generateULID ids) v }
        registered := s.registered ++ [⟨generateULID ids, v⟩] } := by
  rcases hop with rfl | rfl <;> rfl

theorem step_dispose (ids : Ids) {k : Nat} (h : s.registered[k]? = some o) : s.step ids (.Dispose k) =
    { s with
      manager := { s.manager with values := s.manager.values.erase o.id }
      disposed := k :: s.disposed } := by
  rw [step, h]
  rfl

namespace Inv

theorem live_id (h : s.Inv ids) (hlive : s.Live k o) : o.id = generateULID ids :=
  h.sameId o (List.mem_of_getElem? hlive.1)

theorem kept (h : s.Inv ids) : s.Kept := by
  refine ⟨fun k o hlive => ?_, fun j k o p ho hp hne => ?_, fun j k o p ho hp hne => ?_⟩
  · have hid := h.live_id hlive
    exact (object_path_iff hid).mpr ⟨h.sound k o hlive, hid ▸ h.stored k o hlive⟩
  · exact absurd (h.sole j k o p ho hp) hne
  · exact absurd (h.sole j k o p ho hp) hne

/-- A call is served by the object whose path it names, whatever the mount path. -/
theorem served (h : s.Inv ids) (hlive : s.Live k o) :
    s.manager.ServeRPC (o.Path s.manager) = .ok o.value := by
  have hid := h.live_id hlive
  exact serveRPC_path hid (hid ▸ h.stored k o hlive)

theorem start (ids : Ids) (mountPath : Str) : (start mountPath : Managed V).Inv ids where
  sameId o ho := by cases ho
  sole j k o p ho _ := by cases ho.1
  stored k o ho := by cases ho.1
  sound k o ho := by cases ho.1
  disposed k hk := by cases hk

/-- The object registered is the one that is live then. -/
theorem register (h : s.Inv ids) {v : V} {op : Op V} (hop : op = .Register v ∨ op = .Handle v)
    (hnone : ∀ k o, ¬ s.Live k o) (hsound : GoPath.Sound slash dot s.manager.mountPath) :
    (s.step ids op).Inv ids := by
  rw [step_register ids s v op hop]
  have hlive : ∀ k o, Live (V := V)
      { s with
        manager := { s.manager with values := s.manager.values.set (generateULID ids) v }
        registered := s.registered ++ [⟨generateULID ids, v⟩] } k o →
      k = s.registered.length ∧ o = ⟨generateULID ids, v⟩ := by
    rintro k o ⟨hget, hk⟩
    rcases Nat.lt_or_ge k s.registered.length with hlt | hge
    · rw [List.getElem?_append_left hlt] at hget
      exact absurd ⟨hget, hk⟩ (hnone k o)
    · obtain ⟨hlt, -⟩ := List.getElem?_eq_some_iff.mp hget
      rw [List.length_append, List.length_singleton] at hlt
      have hkl : k = s.registered.length := by omega
      rw [hkl, List.getElem?_concat_length] at hget
      exact ⟨hkl, (Option.some.inj hget).symm⟩
  refine ⟨fun o ho => ?_, fun j k o p ho hp => ?_, fun k o ho => ?_, fun _ _ _ => hsound, fun k hk => ?_⟩
  · rcases List.mem_append.mp ho with ho | ho
    · exact h.sameId o ho
    · rw [List.mem_singleton.mp ho]
  · rw [(hlive j o ho).1, (hlive k p hp).1]
  · rw [(hlive k o ho).2]
    exact (Table.get?_set _ _ _ _).trans (if_pos rfl)
  · rw [List.length_append, List.length_singleton]
    exact Nat.lt_succ_of_lt (h.disposed k hk)

/-- Nothing is live behind a `Dispose` of what is live, or while nothing is. -/
theorem dispose (h : s.Inv ids) (hfits : s.Fits (.Dispose k)) : (s.step ids (.Dispose k)).Inv ids := by
  cases hget : s.registered[k]? with
  | none =>
    rw [step, hget]
    exact h
  | some o =>
    rw [step_dispose ids hget]
    have hnone : ∀ j p, ¬ (s.registered[j]? = some p ∧ j ∉ k :: s.disposed) := by
      rintro j p ⟨hj, hmem⟩
      rw [List.mem_cons, not_or] at hmem
      by_cases hk : k ∈ s.disposed
      · exact hfits hk j p ⟨hj, hmem.2⟩
      · exact hmem.1 (h.sole j k p o ⟨hj, hmem.2⟩ ⟨hget, hk⟩)
    refine ⟨h.sameId, fun j _ p _ hp _ => ?_, fun j p hp => ?_, fun j p hp => ?_, fun j hj => ?_⟩
    · exact absurd hp (hnone j p)
    · exact absurd hp (hnone j p)
    · exact absurd hp (hnone j p)
    · rcases List.mem_cons.mp hj with rfl | hj
      · exact (List.getElem?_eq_some_iff.mp hget).1
      · exact h.disposed j hj

theorem step (h : s.Inv ids) {op : Op V} (hfits : s.Fits op) : (s.step ids op).Inv ids := by
  cases op with
  | Register v => exact h.register (.inl rfl) hfits.1 hfits.2
  | Handle v => exact h.register (.inr rfl) hfits.1 hfits.2
  | Dispose k => exact h.dispose hfits

/-- An object registered beside a live one has its path, and under a path that is not sound it is not
found. -/
theorem register_lost (h : s.Inv ids) {v : V} {op : Op V} (hop : op = .Register v ∨ op = .Handle v)
    (hfits : ¬ ((∀ k o, ¬ s.Live k o) ∧ GoPath.Sound slash dot s.manager.mountPath)) :
    ¬ (s.step ids op).Kept := by
  intro hk
  rw [step_register ids s v op hop] at hk
  have hfresh : s.registered.length ∉ s.disposed := fun hm => Nat.lt_irrefl _ (h.disposed _ hm)
  refine hfits ⟨fun j p hlive => ?_, ?_⟩
  · obtain ⟨hlt, -⟩ := List.getElem?_eq_some_iff.mp hlive.1
    refine hk.apart j s.registered.length p ⟨generateULID ids, v⟩ ⟨?_, hlive.2⟩ ⟨?_, hfresh⟩
      (Nat.ne_of_lt hlt) ?_
    · rw [List.getElem?_append_left hlt]
      exact hlive.1
    · exact List.getElem?_concat_length
    · rw [ManagedObject.Path, ManagedObject.Path, h.live_id hlive]
  · have hret := hk.retrieved s.registered.length ⟨generateULID ids, v⟩
      ⟨List.getElem?_concat_length, hfresh⟩
    exact ((object_path_iff rfl).mp hret).1

/-- What is disposed again takes the live object with it. -/
theorem dispose_lost (h : s.Inv ids) (hfits : ¬ s.Fits (.Dispose k)) :
    ¬ (s.step ids (.Dispose k)).Kept := by
  intro hkept
  obtain ⟨hk, hlive⟩ := Classical.not_imp.mp hfits
  refine hlive fun j p hp => ?_
  obtain ⟨o, hget⟩ : ∃ o, s.registered[k]? = some o :=
    ⟨_, List.getElem?_eq_getElem (h.disposed k hk)⟩
  rw [step_dispose ids hget] at hkept
  have hret := hkept.retrieved j p ⟨hp.1, fun hm => ?_⟩
  · obtain ⟨-, hstored⟩ := of_object hret
    have hsame : o.id = p.id := by
      rw [h.live_id hp]
      exact h.sameId o (List.mem_of_getElem? hget)
    rw [hsame] at hstored
    have hgone := (Table.get?_erase s.manager.values p.id p.id).trans (if_pos rfl)
    cases hgone.symm.trans hstored
  · rcases List.mem_cons.mp hm with rfl | hm
    · exact hp.2 hk
    · exact hp.2 hm

theorem lost (h : s.Inv ids) {op : Op V} (hfits : ¬ s.Fits op) : ¬ (s.step ids op).Kept := by
  cases op with
  | Register v => exact h.register_lost (.inl rfl) hfits
  | Handle v => exact h.register_lost (.inr rfl) hfits
  | Dispose k => exact h.dispose_lost hfits

end Inv

end

/-- The objects are kept in every state of a run exactly if each step leaves them one at a time. -/
theorem objects_kept_iff (ids : Ids) (mountPath : Str) (ops : List (Op V)) :
    Throughout (step ids) Kept (start mountPath) ops ↔ Meets (step ids) Fits (start mountPath) ops :=
  throughout_iff_meets (fun _ h => Inv.kept h) (fun _ _ h hfits => Inv.step h hfits)
    (fun _ _ h hfits => Inv.lost h hfits) (Inv.start ids mountPath)

/-- What the packages give for the timestamp and the seed of `generateULID`. -/
def fixed : Ids where
  Source := Int
  newSource seed := seed
  ulid _ _ := "0000XSNJG0MQJHBF4QX1EFD6Y3".toList.map fun c => UInt8.ofNat c.toNat
  plain _ _ := ⟨by decide, by decide, by decide⟩

/-- Of two objects registered one after the other, under the path of a new manager, the first one's
path leads to the second. -/
theorem second_replaces_first :
    let s := [Op.Register 1, .Register 2].foldl (step fixed) (start [slash])
    s.registered = [⟨generateULID fixed, 1⟩, ⟨generateULID fixed, 2⟩] ∧ s.disposed = [] ∧
      s.manager.Object (ManagedObject.Path ⟨generateULID fixed, 1⟩ s.manager) =
        .ok (some ⟨generateULID fixed, 2⟩) ∧
      ¬ ∀ (ids : Ids) (mountPath : Str) (ops : List (Op Nat)),
        Throughout (step ids) Kept (start mountPath) ops := by
  refine ⟨rfl, rfl, rfl, fun h => ?_⟩
  have hkept := h fixed [slash] [.Register 1, .Register 2] 2
  exact hkept.apart 0 1 ⟨generateULID fixed, 1⟩ ⟨generateULID fixed, 2⟩
    ⟨rfl, List.not_mem_nil⟩ ⟨rfl, List.not_mem_nil⟩ (by decide) rfl

end Managed

end Qtalk.Rpc.Objects
