import Mathlib.Algebra.BigOperators.Group.List.Basic
import Mathlib.Algebra.Order.Ring.Nat
import Mathlib.Data.List.Infix
import Mathlib.Data.List.Sort
import Qtalk.Rpc.Dispatch

/-!
# From a request to its handler in TypeScript

The `Call` constructor and `caller.call` of `javascript/rpc/caller.ts`, `Respond` and
`RespondMux` of `javascript/rpc/responder.ts`, against their Go counterparts.

The constructor drops a leading slash as `Call.Parse` does, and the client runs it before
it sends: a path of this client is stripped twice, one of the Go client once
(`same_place_iff`). `handler` takes the first property whose name is a prefix of the path,
in the order of the object's properties, where Go takes the one of that name
(`handlers_agree_iff`).
-/

namespace Qtalk.Js.Rpc
open Qtalk.Lib Qtalk.Rpc

section Calls

variable {α : Type} [DecidableEq α] [Text α]

/-- The fields of a TypeScript `Call`. -/
structure CallFields (α : Type) where
  Destination : List α
  objectPath : List α
  method : List α

/-- The constructor of `Call`. -/
def CallFields.constructor (destination : List α) : Except String (CallFields α) :=
  if destination.length = 0 then .error "no destination specified"
  else
    let Destination := if destination.head? = some Text.slash then destination.drop 1 else destination
    let parts := Destination.splitOn Text.slash
    if parts.length = 1 then .ok ⟨Destination, [Text.slash], parts.headD []⟩
    else .ok ⟨Destination, [Text.slash].intercalate parts.dropLast, parts.getLastD []⟩

/-- The two implementations of a client or a responder. -/
inductive Side where
  | go
  | js

/-- The request a client sends for `path`. Go's caller fills in the destination alone; the
TypeScript one sends the fields of its `Call`, and the constructor may throw before. -/
def Side.request : Side → List α → Except String (Qtalk.Rpc.Call α)
  | .go, path => .ok ⟨path, [], []⟩
  | .js, path => (CallFields.constructor path).map fun c => ⟨c.Destination, c.objectPath, c.method⟩

/-- Destination, object path and method as a responder parses them. Go decodes all three and
parses the destination again; TypeScript reads the destination alone. -/
def Side.receive : Side → Qtalk.Rpc.Call α → Except String (List α × List α × List α)
  | .go, frame => frame.Parse.map fun c => (c.Destination, c.ObjectPath, c.Method)
  | .js, frame =>
    (CallFields.constructor frame.Destination).map fun c => (c.Destination, c.objectPath, c.method)

/-- What a responder makes of a client's call of `path`. -/
def arrival (client responder : Side) (path : List α) : Except String (List α × List α × List α) :=
  (client.request path).bind responder.receive

/-- The object path and the method of a stripped destination. -/
def place (destination : List α) : List α × List α :=
  let parts := destination.splitOn Text.slash
  if parts.length = 1 then ([Text.slash], parts.headD [])
  else ([Text.slash].intercalate parts.dropLast, parts.getLastD [])

theorem Parse_eq {c : Qtalk.Rpc.Call α} (hc : c.Destination ≠ []) :
    c.Parse = .ok ⟨unrooted c.Destination, (place (unrooted c.Destination)).1,
      (place (unrooted c.Destination)).2⟩ := by
  have len : ¬ c.Destination.length = 0 := fun h => hc (List.length_eq_zero_iff.mp h)
  unfold Call.Parse place
  rw [if_neg len]
  dsimp only
  split <;> rfl

theorem constructor_eq {path : List α} (hp : path ≠ []) :
    CallFields.constructor path = .ok ⟨unrooted path, (place (unrooted path)).1,
      (place (unrooted path)).2⟩ := by
  have len : ¬ path.length = 0 := fun h => hp (List.length_eq_zero_iff.mp h)
  have same : (if path.head? = some Text.slash then path.drop 1 else path) = unrooted path := by
    rw [List.drop_one]
    rfl
  unfold CallFields.constructor place
  rw [if_neg len]
  dsimp only
  rw [same]
  split <;> rfl

/-- What both responders parse, for a request with this destination. -/
def parsed (destination : List α) : Except String (List α × List α × List α) :=
  if destination = [] then .error "no destination specified"
  else .ok (unrooted destination, place (unrooted destination))

theorem receive_eq (r : Side) (frame : Qtalk.Rpc.Call α) : r.receive frame = parsed frame.Destination := by
  unfold parsed
  by_cases he : frame.Destination = []
  · cases r <;> simp [Side.receive, Call.Parse, CallFields.constructor, he, Except.map]
  · rw [if_neg he]
    cases r with
    | go =>
      simp only [Side.receive, Parse_eq he]
      rfl
    | js =>
      simp only [Side.receive, constructor_eq he]
      rfl

theorem go_arrival (r : Side) (path : List α) : arrival .go r path = parsed path :=
  receive_eq r ⟨path, [], []⟩

/-- The TypeScript client strips the path once more. -/
theorem js_arrival (r : Side) {path : List α} (hp : path ≠ []) :
    arrival .js r path = parsed (unrooted path) := by
  simp only [arrival, Side.request, constructor_eq hp]
  exact receive_eq r ⟨unrooted path, _, _⟩

theorem js_arrival_nil (r : Side) :
    arrival .js r ([] : List α) = .error "no destination specified" := rfl

/-- Either responder makes the same of the calls of both clients exactly if the path is not
a lone slash and does not begin with two. -/
theorem same_place_iff (r : Side) (path : List α) :
    arrival .js r path = arrival .go r path ↔
      path ≠ [Text.slash] ∧ ¬ [Text.slash, Text.slash] <+: path := by
  rw [go_arrival]
  rcases path with _ | ⟨c, path⟩
  · simp [js_arrival_nil, parsed]
  · rw [js_arrival r (List.cons_ne_nil c path)]
    by_cases hc : c = Text.slash
    · subst hc
      have stripped : unrooted (Text.slash :: path) = path := by simp [unrooted]
      rw [stripped]
      rcases path with _ | ⟨d, path⟩
      · simp [parsed]
      · by_cases hd : d = Text.slash
        · subst hd
          have again : unrooted (Text.slash :: path) = path := by simp [unrooted]
          simp [parsed, stripped, again]
        · have kept : unrooted (d :: path) = d :: path := by simp [unrooted, hd]
          simp [parsed, stripped, kept, Ne.symm hd]
    · have kept : unrooted (c :: path) = c :: path := by simp [unrooted, hc]
      rw [kept]
      simp [hc, Ne.symm hc]

/-- A request for `/` is sent by the Go client and answered, and rejected when it comes from
TypeScript. -/
theorem lone_slash_differs :
    arrival .go .go ['/'] = .ok ([], ['/'], []) ∧
      arrival .js .go ['/'] = .error "no destination specified" :=
  ⟨rfl, rfl⟩

end Calls

/-! ## The object of handlers -/

/-- A path that is a text in both languages. -/
abbrev Path := List Char

/-- `__proto__`: storing under it sets the prototype of an object and makes no property. -/
def protoKey : Path := ['_', '_', 'p', 'r', 'o', 't', 'o', '_', '_']

/-- `hasOwnProperty`. -/
def hasOwnKey : Path := ['h', 'a', 's', 'O', 'w', 'n', 'P', 'r', 'o', 'p', 'e', 'r', 't', 'y']

/-- The array index a property name stands for, if it is one: an integer below `2^32 - 1`
as it is printed. -/
def arrayIndex? (k : Path) : Option Nat :=
  let n := Nat.ofDigitChars 10 k 0
  if Nat.toDigits 10 n = k ∧ n < 2 ^ 32 - 1 then some n else none

/-- What a call of something that is no function throws. -/
inductive TypeError where
  | notAFunction (property : Path)
  deriving DecidableEq, Repr

section Objects

variable {H : Type}

def indexed (e : Path × H) : Bool := (arrayIndex? e.1).isSome

def lower (a b : Path × H) : Prop := (arrayIndex? a.1).getD 0 ≤ (arrayIndex? b.1).getD 0

instance : DecidableRel (lower (H := H)) := fun a b =>
  inferInstanceAs (Decidable ((arrayIndex? a.1).getD 0 ≤ (arrayIndex? b.1).getD 0))

/-- The own properties of an object in their order: array indices by value, then the other
names by age. -/
def properties (t : Table Path H) : List (Path × H) :=
  (t.entries.filter indexed).insertionSort lower ++ t.entries.filter fun e => !indexed e

/-- The TypeScript `RespondMux`: the object its handlers are stored in. Handlers are
objects with a method `respondRPC` that cannot be called themselves. -/
structure RespondMux (H : Type) where
  handlers : Table Path H

def RespondMux.new : RespondMux H := ⟨.empty⟩

/-- `RespondMux.bind`. -/
def RespondMux.bind (m : RespondMux H) (path : Path) (handler : H) : RespondMux H :=
  if path = protoKey then m else ⟨m.handlers.set path handler⟩

/-- The loop of `RespondMux.handler` over the properties left, up to the one it stops at.
Each round calls `this.handlers.hasOwnProperty`; a handler stored under that name hides the
method. Inherited names fail the test and are left out. -/
def RespondMux.search (m : RespondMux H) (path : Path) :
    List (Path × H) → Except TypeError (Option (Path × H))
  | [] => .ok none
  | e :: rest =>
    if hasOwnKey ∈ m.handlers.keys then .error (.notAFunction hasOwnKey)
    else if e.1.isPrefixOf path then .ok (some e)
    else m.search path rest

/-- The property `RespondMux.handler` stops at. -/
def RespondMux.selected (m : RespondMux H) (path : Path) : Except TypeError (Option (Path × H)) :=
  m.search path (properties m.handlers)

/-- `RespondMux.handler`. -/
def RespondMux.handler (m : RespondMux H) (path : Path) : Except TypeError (Option H) :=
  (m.selected path).map (Option.map Prod.snd)

/-- A responder on which handlers have been bound at these paths, one after the other. -/
def boundJs (binds : List (Path × H)) : RespondMux H :=
  binds.foldl (fun m b => m.bind b.1 b.2) .new

/-- A number that grows along the properties of the object after handlers have been bound at
these paths. -/
def rank (paths : List Path) (k : Path) : Nat :=
  (arrayIndex? k).getD (2 ^ 32 + firstPlace paths k)

/-- TypeScript selects a handler for `q` exactly if Go does, and the one bound at the same path:
the property a search ends at, an exception being no handler, is Go's entry. -/
def SelectsAlike (binds order : List (Path × H)) (q : Path) : Prop :=
  (((boundJs binds).selected q).toOption.join : Option (Path × H)) =
    Qtalk.Rpc.RespondMux.selected order q

/-- Nothing bound is taken for `q` in its place. -/
def Unshadowed (paths : List Path) (q : Path) : Prop :=
  (q ∈ paths → q ≠ protoKey ∧ hasOwnKey ∉ paths ∧
    ∀ k ∈ paths, k ≠ protoKey → k <+: q → rank paths q ≤ rank paths k) ∧
  (q ∉ paths → hasOwnKey ∈ paths ∨ ∀ k ∈ paths, k ≠ protoKey → ¬ k <+: q)

/-! ## The order of properties -/

theorem arrayIndex?_digits {k : Path} {n : Nat} (h : arrayIndex? k = some n) :
    k = Nat.toDigits 10 n := by
  unfold arrayIndex? at h
  dsimp only at h
  split at h
  · next digits =>
    obtain rfl := Option.some.inj h
    exact digits.1.symm
  · cases h

/-- A number below the bound is an index under its digits. -/
theorem arrayIndex?_toDigits {n : Nat} (hn : n < 2 ^ 32 - 1) :
    arrayIndex? (Nat.toDigits 10 n) = some n := by
  have back : Nat.ofDigitChars 10 (Nat.toDigits 10 n) 0 = n :=
    Nat.ofDigitChars_toDigits (by decide) (by decide)
  unfold arrayIndex?
  dsimp only
  rw [back, if_pos ⟨rfl, hn⟩]

theorem arrayIndex?_lt {k : Path} {n : Nat} (h : arrayIndex? k = some n) : n < 2 ^ 32 - 1 := by
  unfold arrayIndex? at h
  dsimp only at h
  split at h
  · next digits =>
    obtain rfl := Option.some.inj h
    exact digits.2
  · cases h

instance : Std.Total (lower (H := H)) := ⟨fun _ _ => Nat.le_total _ _⟩

instance : IsTrans (Path × H) lower := ⟨fun _ _ _ hab hbc => Nat.le_trans hab hbc⟩

theorem mem_properties {t : Table Path H} {e : Path × H} : e ∈ properties t ↔ e ∈ t.entries := by
  unfold properties
  rw [List.mem_append, List.mem_insertionSort, List.mem_filter, List.mem_filter]
  cases indexed e <;> simp

/-- Indices stand by their value: no two names are digits of the same number. -/
theorem indices_sorted (t : Table Path H) (paths : List Path) :
    ((t.entries.filter indexed).insertionSort lower).Pairwise
      (fun a b => rank paths a.1 < rank paths b.1) := by
  have perm := List.perm_insertionSort lower (t.entries.filter indexed)
  have sorted := List.pairwise_insertionSort lower (t.entries.filter indexed)
  have distinct : ((t.entries.filter indexed).insertionSort lower).Pairwise
      (fun a b => a.1 ≠ b.1) := by
    have keys : (t.entries.filter indexed).Pairwise (fun a b => a.1 ≠ b.1) :=
      (List.pairwise_map.mp t.distinct).filter _
    exact perm.symm.pairwise keys fun h => h.symm
  refine (sorted.and distinct).imp_of_mem fun {a b} ha hb h => ?_
  have index : ∀ e ∈ (t.entries.filter indexed).insertionSort lower, ∃ n, arrayIndex? e.1 = some n :=
    fun e he => Option.isSome_iff_exists.mp (List.mem_filter.mp (perm.mem_iff.mp he)).2
  obtain ⟨m, hm⟩ := index a ha
  obtain ⟨n, hn⟩ := index b hb
  have le : m ≤ n := by simpa [lower, hm, hn] using h.1
  have ne : m ≠ n := by
    rintro rfl
    exact h.2 ((arrayIndex?_digits hm).trans (arrayIndex?_digits hn).symm)
  unfold rank
  rw [hm, hn]
  exact Nat.lt_of_le_of_ne le ne

/-- The binds that make a property. -/
def owned (binds : List (Path × H)) : List (Path × H) :=
  binds.filter fun b => decide (b.1 ≠ protoKey)

theorem owned_keys (binds : List (Path × H)) :
    (owned binds).map Prod.fst = (binds.map Prod.fst).filter fun k => decide (k ≠ protoKey) := by
  rw [List.filter_map]
  rfl

theorem mem_owned_keys {binds : List (Path × H)} {k : Path} :
    k ∈ (owned binds).map Prod.fst ↔ k ∈ binds.map Prod.fst ∧ k ≠ protoKey := by
  rw [owned_keys, List.mem_filter, decide_eq_true_eq]

theorem last_owned (binds : List (Path × H)) (k : Path) :
    Table.last (owned binds) k = if k = protoKey then none else Table.last binds k := by
  unfold Table.last owned
  rw [← List.filter_reverse]
  induction binds.reverse with
  | nil => simp
  | cons b l ih =>
    by_cases hb : b.1 = protoKey
    · rw [List.filter_cons_of_neg (by simp [hb]), ih, Table.lookup_cons_if, hb]
      by_cases hk : k = protoKey <;> simp [hk]
    · rw [List.filter_cons_of_pos (by simp [hb]), Table.lookup_cons_if, Table.lookup_cons_if, ih]
      by_cases hk : k = protoKey
      · have : k ≠ b.1 := fun h => hb (h.symm.trans hk)
        simp [hk, hk ▸ this]
      · simp [hk]

theorem boundJs_handlers (binds : List (Path × H)) :
    (boundJs binds).handlers = Table.empty.stored (owned binds) := by
  have from_any : ∀ m : RespondMux H,
      (binds.foldl (fun m b => m.bind b.1 b.2) m).handlers = m.handlers.stored (owned binds) := by
    induction binds with
    | nil => exact fun m => rfl
    | cons b binds ih =>
      intro m
      rw [List.foldl_cons, ih]
      unfold RespondMux.bind owned
      by_cases hb : b.1 = protoKey
      · rw [if_pos hb, List.filter_cons_of_neg (by simp [hb])]
      · rw [if_neg hb, List.filter_cons_of_pos (by simp [hb])]
        rfl
  exact from_any .new

theorem boundJs_get? (binds : List (Path × H)) (k : Path) :
    (boundJs binds).handlers.get? k = if k = protoKey then none else Table.last binds k := by
  rw [boundJs_handlers, Table.get?_stored, last_owned, Table.get?_empty, Option.or_none]

theorem boundJs_keys {binds : List (Path × H)} {k : Path} :
    k ∈ (boundJs binds).handlers.keys ↔ k ∈ binds.map Prod.fst ∧ k ≠ protoKey := by
  rw [boundJs_handlers, (Table.keys_stored (owned binds)).2, mem_owned_keys]

/-- The names that are no indices stand in the order they were first bound in. -/
theorem names_sorted (binds : List (Path × H)) :
    ((boundJs binds).handlers.entries.filter fun e => !indexed e).Pairwise
      (fun a b => rank (binds.map Prod.fst) a.1 < rank (binds.map Prod.fst) b.1) := by
  rw [boundJs_handlers]
  have byAge := (List.pairwise_map.mp (Table.keys_stored (owned binds)).1).filter
    fun e => !indexed e
  refine byAge.imp_of_mem fun {a b} ha hb h => ?_
  have own : ∀ e ∈ (Table.empty.stored (owned binds)).entries.filter (fun e => !indexed e),
      arrayIndex? e.1 = none ∧ decide (e.1 ≠ protoKey) = true := by
    intro e he
    obtain ⟨mem, plain⟩ := List.mem_filter.mp he
    have key := ((Table.keys_stored (owned binds)).2 e.1).mp (List.mem_map_of_mem mem)
    refine ⟨?_, decide_eq_true (mem_owned_keys.mp key).2⟩
    simpa [indexed] using plain
  obtain ⟨ia, pa⟩ := own a ha
  obtain ⟨ib, pb⟩ := own b hb
  rw [owned_keys] at h
  have older := (firstPlace_filter_lt (p := fun k => decide (k ≠ protoKey)) pa pb
    (binds.map Prod.fst)).mp h
  unfold rank
  rw [ia, ib, Option.getD_none, Option.getD_none]
  omega

theorem properties_sorted (binds : List (Path × H)) :
    (properties (boundJs binds).handlers).Pairwise
      (fun a b => rank (binds.map Prod.fst) a.1 < rank (binds.map Prod.fst) b.1) := by
  refine List.pairwise_append.mpr ⟨indices_sorted _ _, names_sorted binds, fun a ha b hb => ?_⟩
  have index := (List.mem_filter.mp ((List.mem_insertionSort lower).mp ha)).2
  have name := (List.mem_filter.mp hb).2
  obtain ⟨n, hn⟩ := Option.isSome_iff_exists.mp index
  have hb : arrayIndex? b.1 = none := by simpa [indexed] using name
  have := arrayIndex?_lt hn
  unfold rank
  rw [hn, hb, Option.getD_some, Option.getD_none]
  omega

/-! ## Where the searches agree -/

theorem search_hidden {m : RespondMux H} (hidden : hasOwnKey ∈ m.handlers.keys) (q : Path) :
    m.selected q = .error (.notAFunction hasOwnKey) := by
  obtain ⟨e, he, -⟩ := List.mem_map.mp hidden
  have he := mem_properties.mpr he
  unfold RespondMux.selected
  cases hp : properties m.handlers with
  | nil => rw [hp] at he; cases he
  | cons e rest =>
    unfold RespondMux.search
    rw [if_pos hidden]

theorem search_open {m : RespondMux H} (clear : hasOwnKey ∉ m.handlers.keys) (q : Path) :
    m.selected q = .ok ((properties m.handlers).find? fun e => e.1.isPrefixOf q) := by
  unfold RespondMux.selected
  induction properties m.handlers with
  | nil => rfl
  | cons e rest ih =>
    unfold RespondMux.search
    rw [if_neg clear]
    by_cases hp : e.1.isPrefixOf q = true
    · rw [if_pos hp, List.find?_cons, hp]
    · rw [if_neg hp, List.find?_cons, Bool.eq_false_iff.mpr hp, ih]

/-- Every property is a bound path other than `__proto__`, and the other way round. -/
theorem forall_properties (binds : List (Path × H)) (P : Path → Prop) :
    (∀ e ∈ properties (boundJs binds).handlers, P e.1) ↔
      ∀ k ∈ binds.map Prod.fst, k ≠ protoKey → P k := by
  constructor
  · intro h k hk own
    obtain ⟨e, he, rfl⟩ := List.mem_map.mp (boundJs_keys.mpr ⟨hk, own⟩)
    exact h e (mem_properties.mpr he)
  · intro h e he
    have key := boundJs_keys.mp (List.mem_map_of_mem (mem_properties.mp he))
    exact h e.1 key.1 key.2

/-- Of a bound path TypeScript finds the entry if no prefix of it stands before. -/
theorem finds_bound {binds : List (Path × H)} {q : Path} {h : H} (hq : Table.last binds q = some h) :
    (properties (boundJs binds).handlers).find? (fun e => e.1.isPrefixOf q) = some (q, h) ↔
      q ≠ protoKey ∧ ∀ k ∈ binds.map Prod.fst, k ≠ protoKey → k <+: q →
        rank (binds.map Prod.fst) q ≤ rank (binds.map Prod.fst) k := by
  have asymm : ∀ a b : Path × H, rank (binds.map Prod.fst) a.1 < rank (binds.map Prod.fst) b.1 →
      ¬ rank (binds.map Prod.fst) b.1 < rank (binds.map Prod.fst) a.1 :=
    fun _ _ => Nat.lt_asymm
  have entry : (q, h) ∈ properties (boundJs binds).handlers ↔ q ≠ protoKey := by
    rw [mem_properties, Table.mem_entries, boundJs_get?, hq]
    by_cases hp : q = protoKey <;> simp [hp]
  have least := forall_properties binds
    (fun k => rank (binds.map Prod.fst) k < rank (binds.map Prod.fst) q →
      k.isPrefixOf q = false)
  rw [find?_least (properties_sorted binds) asymm, entry, least]
  have self : q.isPrefixOf q = true := by simp
  simp only [self, true_and]
  refine and_congr_right fun _ => forall_congr' fun k => ?_
  refine imp_congr_right fun _ => imp_congr_right fun _ => ?_
  rw [← Bool.not_eq_true, List.isPrefixOf_iff_prefix, ← Nat.not_lt]
  exact imp_not_comm

/-- Both searches select a handler for the same requests, and the one bound at the path, exactly
where nothing bound is taken in its place. -/
theorem handlers_agree_iff (binds : List (Path × H))
    (plain : ∀ b ∈ binds, b.1.getLast? ≠ some '/') (order : List (Path × H))
    (ho : order.Perm (bound binds).handlers.entries) (q : Path) :
    SelectsAlike binds order q ↔ Unshadowed (binds.map Prod.fst) q := by
  unfold SelectsAlike Unshadowed
  rw [selected_eq plain ho]
  have found : q ∈ binds.map Prod.fst ↔ ∃ h, lastBound binds q = some h := by
    rw [← Option.isSome_iff_exists]
    exact Table.last_isSome.symm
  by_cases hidden : hasOwnKey ∈ binds.map Prod.fst
  · have key : hasOwnKey ∈ (boundJs binds).handlers.keys :=
      boundJs_keys.mpr ⟨hidden, by decide⟩
    rw [search_hidden key]
    cases hl : lastBound binds q with
    | none =>
      have : q ∉ binds.map Prod.fst := fun h => by
        obtain ⟨h, hh⟩ := found.mp h
        rw [hl] at hh
        cases hh
      simp [Except.toOption, this, hidden]
    | some h =>
      have : q ∈ binds.map Prod.fst := found.mpr ⟨h, hl⟩
      simp [Except.toOption, this, hidden]
  · have key : hasOwnKey ∉ (boundJs binds).handlers.keys := fun h => hidden (boundJs_keys.mp h).1
    rw [search_open key]
    cases hl : lastBound binds q with
    | none =>
      have absent : q ∉ binds.map Prod.fst := fun h => by
        obtain ⟨h, hh⟩ := found.mp h
        rw [hl] at hh
        cases hh
      have none_found := forall_properties binds (fun k => ¬ k <+: q)
      simp only [absent, hidden, false_imp_iff, true_and, not_false_iff, true_imp_iff, false_or,
        ← none_found]
      simp [Except.toOption, List.find?_eq_none]
    | some h =>
      have present : q ∈ binds.map Prod.fst := found.mpr ⟨h, hl⟩
      have := finds_bound (h := h) hl
      simp only [present, hidden, not_true, false_imp_iff, and_true, true_imp_iff,
        not_false_iff, true_and, ← this]
      simp [Except.toOption]

/-- Bound before `user`, the path `up` does not stand in its way. -/
theorem handlers_agree :
    let binds : List (Path × Nat) := [(['u', 'p'], 0), (['u', 's', 'e', 'r'], 1)]
    SelectsAlike binds (bound binds).handlers.entries ['u', 's', 'e', 'r'] := by
  intro binds
  refine (handlers_agree_iff binds (by decide) _ (List.Perm.refl _) _).mpr ⟨fun _ => ?_, ?_⟩
  · decide
  · intro absent
    exact absurd (by decide) absent

/-- With `a` bound before `ab`, TypeScript runs the handler of `a` for a request for `ab`; and
with `a` alone it runs it for `ab`, which Go refuses. -/
theorem prefix_taken :
    let binds : List (Path × Nat) := [(['a'], 0), (['a', 'b'], 1)]
    (boundJs binds).handler ['a', 'b'] = .ok (some 0) ∧
      Qtalk.Rpc.RespondMux.Handler (bound binds).handlers.entries ['a', 'b'] = some 1 ∧
      ¬ SelectsAlike binds (bound binds).handlers.entries ['a', 'b'] ∧
      ¬ SelectsAlike [(['a'], 0)] (bound [((['a'] : Path), 0)]).handlers.entries ['a', 'b'] := by
  intro binds
  refine ⟨by decide, by decide, ?_, ?_⟩
  · unfold SelectsAlike
    decide
  · unfold SelectsAlike
    decide

end Objects

end Qtalk.Js.Rpc
