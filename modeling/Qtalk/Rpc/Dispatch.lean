import Mathlib.Data.List.Basic
import Qtalk.Lib.Table

/-!
# From a request to its handler

`Call.Parse` of `golang/rpc/caller.go`, `RespondMux.Bind` and `RespondMux.Handler` of
`golang/rpc/responder.go`, and `Respond` as far as it decides who answers. `Parse` drops one
leading slash of the destination and `Bind` keeps it in its key, so a path bound with a
leading slash is reached under that path only through what is bound at the rest of it
(`bound_path_callable`).
-/

namespace Qtalk.Rpc
open Qtalk.Lib

/-- What strings are made of: bytes in Go, UTF-16 code units in JavaScript, and the
characters of the texts that are strings in both. -/
class Text (α : Type) where
  slash : α
  dot : α
  /-- A literal of the source. -/
  literal : String → List α

instance : Text UInt8 := ⟨47, 46, fun s => s.toUTF8.toList⟩
instance : Text UInt16 := ⟨47, 46, fun s => s.toList.map fun c => UInt16.ofNat c.toNat⟩
instance : Text Char := ⟨'/', '.', String.toList⟩

variable {α : Type} [DecidableEq α] [Text α]

/-- The request as it is sent and as the handler sees it. -/
structure Call (α : Type) where
  Destination : List α
  ObjectPath : List α
  Method : List α
  deriving DecidableEq, Repr

/-- The destination without one leading slash. -/
def unrooted (destination : List α) : List α :=
  if destination.head? = some Text.slash then destination.tail else destination

/-- `Call.Parse`. -/
def Call.Parse (c : Call α) : Except String (Call α) :=
  if c.Destination.length = 0 then .error "no destination specified"
  else
    let destination := unrooted c.Destination
    let parts := destination.splitOn Text.slash
    if parts.length = 1 then .ok ⟨destination, [Text.slash], parts.headD []⟩
    else .ok ⟨destination, [Text.slash].intercalate parts.dropLast, parts.getLastD []⟩

variable {H : Type}

/-- What `Bind` is given: a `Handler`, or a value whose functions `MustExport` turns into
handlers under their names. -/
inductive Bindable (α H : Type) where
  | handler (h : H)
  | exported (hs : Table (List α) H)

def Bindable.handlers : Bindable α H → List (List α × H)
  | .handler h => [([], h)]
  | .exported hs => hs.entries

/-- `RespondMux`: its map from keys to handlers. -/
structure RespondMux (α H : Type) where
  handlers : Table (List α) H

/-- `NewRespondMux`. -/
def NewRespondMux : RespondMux α H := ⟨.empty⟩

/-- The key of a handler named `p` bound at `path`. -/
def bindKey (path p : List α) : List α :=
  if path ≠ [] ∧ p ≠ [] then [Text.dot].intercalate [path, p] else path ++ p

/-- `RespondMux.Bind`. -/
def RespondMux.Bind (m : RespondMux α H) (path : List α) (v : Bindable α H) : RespondMux α H :=
  ⟨m.handlers.stored (v.handlers.map fun e => (bindKey path e.1, e.2))⟩

/-- The test `Handler` makes of a key. -/
def answersTo (path k : List α) : Bool :=
  ((k.getLast? = some Text.slash) && k.isPrefixOf path) || path = k

/-- The entry `RespondMux.Handler` stops at, when it meets the entries in this order. -/
def RespondMux.selected (order : List (List α × H)) (path : List α) : Option (List α × H) :=
  order.find? fun e => answersTo path e.1

/-- `RespondMux.Handler`. -/
def RespondMux.Handler (order : List (List α × H)) (path : List α) : Option H :=
  (RespondMux.selected order path).map Prod.snd

/-- How `Respond` goes on after it has read a request. -/
inductive Dispatched (α H : Type) where
  | rejected (error : String)
  | missing (error : List α)
  | answered (h : H) (call : Call α)
  deriving DecidableEq

/-- `Respond`, from the decoded request to the handler it is given to. -/
def Respond (order : List (List α × H)) (call : Call α) : Dispatched α H :=
  match call.Parse with
  | .error e => .rejected e
  | .ok call =>
    match RespondMux.Handler order call.Destination with
    | none =>
      .missing (Text.literal "handler does not exist for this destination: " ++ call.Destination)
    | some h => .answered h call

/-- A responder on which handlers have been bound at these paths, one after the other. -/
def bound (binds : List (List α × H)) : RespondMux α H :=
  binds.foldl (fun m b => m.Bind b.1 (.handler b.2)) NewRespondMux

/-- The handler bound last at a path. -/
def lastBound (binds : List (List α × H)) (path : List α) : Option H := Table.last binds path

/-- Handlers at non-empty paths that do not end in a slash. -/
def Plain (binds : List (List α × H)) : Prop :=
  ∀ b ∈ binds, b.1 ≠ [] ∧ b.1.getLast? ≠ some Text.slash

/-- The request for `path` is given to `h`. -/
def GivenTo (order : List (List α × H)) (path : List α) (h : H) : Prop :=
  ∃ call, Respond order ⟨path, [], []⟩ = .answered h call

/-! ## What a bound responder holds -/

omit [DecidableEq α] in
@[simp] theorem bindKey_nil (path : List α) : bindKey path [] = path := by
  simp [bindKey]

/-- A handler goes under the path itself, also under the empty one. -/
theorem Bind_handler (m : RespondMux α H) (path : List α) (h : H) :
    m.Bind path (.handler h) = ⟨m.handlers.set path h⟩ := by
  unfold RespondMux.Bind Bindable.handlers
  rw [List.map_singleton, bindKey_nil]
  rfl

theorem bound_handlers (binds : List (List α × H)) :
    (bound binds).handlers = Table.empty.stored binds := by
  have from_any : ∀ m : RespondMux α H,
      (binds.foldl (fun m b => m.Bind b.1 (.handler b.2)) m).handlers = m.handlers.stored binds := by
    induction binds with
    | nil => exact fun m => rfl
    | cons b binds ih =>
      intro m
      rw [List.foldl_cons, ih, Bind_handler]
      rfl
  exact from_any NewRespondMux

theorem bound_get? (binds : List (List α × H)) (path : List α) :
    (bound binds).handlers.get? path = lastBound binds path := by
  rw [bound_handlers, Table.get?_stored, Table.get?_empty, Option.or_none]
  rfl

theorem bound_key {binds : List (List α × H)} {e : List α × H}
    (he : e ∈ (bound binds).handlers.entries) : e.1 ∈ binds.map Prod.fst := by
  rw [bound_handlers] at he
  exact ((Table.keys_stored binds).2 e.1).mp (List.mem_map_of_mem he)

/-! ## Which handler a request reaches -/

/-- Without keys that end in a slash the map is searched for the path itself. -/
theorem selected_eq {binds : List (List α × H)}
    (hb : ∀ b ∈ binds, b.1.getLast? ≠ some Text.slash) {order : List (List α × H)}
    (ho : order.Perm (bound binds).handlers.entries) (path : List α) :
    RespondMux.selected order path = (lastBound binds path).map (path, ·) := by
  unfold RespondMux.selected
  rw [← bound_get?]
  refine Table.find?_key ho path fun e he => ?_
  obtain ⟨b, hbm, hbe⟩ := List.mem_map.mp (bound_key he)
  have exact_key : e.1.getLast? ≠ some Text.slash := hbe ▸ hb b hbm
  unfold answersTo
  simp [exact_key, eq_comm]

theorem Handler_eq {binds : List (List α × H)}
    (hb : ∀ b ∈ binds, b.1.getLast? ≠ some Text.slash) {order : List (List α × H)}
    (ho : order.Perm (bound binds).handlers.entries) (path : List α) :
    RespondMux.Handler order path = lastBound binds path := by
  unfold RespondMux.Handler
  rw [selected_eq hb ho]
  cases lastBound binds path <;> rfl

/-- A parsed request has its destination without one leading slash. -/
theorem Parse_ok {c : Call α} (hc : c.Destination ≠ []) :
    ∃ call, c.Parse = .ok call ∧ call.Destination = unrooted c.Destination := by
  have : ¬ c.Destination.length = 0 := fun h => hc (List.length_eq_zero_iff.mp h)
  unfold Call.Parse
  rw [if_neg this]
  dsimp only
  split
  · exact ⟨_, rfl, rfl⟩
  · exact ⟨_, rfl, rfl⟩

/-- A request goes to what `Handler` finds for its destination without the slash. -/
theorem givenTo_iff {order : List (List α × H)} {path : List α} (hp : path ≠ []) (h : H) :
    GivenTo order path h ↔ RespondMux.Handler order (unrooted path) = some h := by
  obtain ⟨call, parsed, destination⟩ := Parse_ok (c := ⟨path, [], []⟩) hp
  unfold GivenTo Respond
  rw [parsed]
  dsimp only
  rw [destination]
  cases RespondMux.Handler order (unrooted path) with
  | none => simp
  | some h' => simp [eq_comm]

/-- A request for a bound path is given to the handler last bound there exactly if the path
has no leading slash, or the same handler is the one bound at the path without it. -/
theorem bound_path_callable (binds : List (List α × H)) (plain : Plain binds)
    (order : List (List α × H)) (ho : order.Perm (bound binds).handlers.entries)
    (p : List α) (h : H) (hp : lastBound binds p = some h) :
    GivenTo order p h ↔ p.head? ≠ some Text.slash ∨ lastBound binds p.tail = some h := by
  have bound_at : ∃ b ∈ binds, b.1 = p := by
    have : p ∈ binds.map Prod.fst := Table.last_isSome.mp (Option.isSome_of_eq_some hp)
    exact List.mem_map.mp this
  obtain ⟨b, hb, rfl⟩ := bound_at
  rw [givenTo_iff (plain b hb).1, Handler_eq (fun b hb => (plain b hb).2) ho]
  unfold unrooted
  by_cases rooted : b.1.head? = some Text.slash
  · simp [rooted]
  · simp [rooted, hp]

/-- Of two handlers bound at `up` the second answers a request for it. -/
theorem bound_path_called :
    let binds : List (List Char × Nat) := [(['u', 'p'], 0), (['a'], 1), (['u', 'p'], 2)]
    Plain binds ∧ GivenTo (bound binds).handlers.entries ['u', 'p'] 2 := by
  intro binds
  have plain : Plain binds := by
    unfold Plain
    decide
  refine ⟨plain, ?_⟩
  exact (bound_path_callable binds plain _ (List.Perm.refl _) ['u', 'p'] 2 rfl).mpr
    (Or.inl (by decide))

/-- What is bound at `/up` is not found by a request for `/up`. -/
theorem rooted_path_missing :
    let binds : List (List Char × Nat) := [(['/', 'u', 'p'], 0)]
    Plain binds ∧ lastBound binds ['/', 'u', 'p'] = some 0 ∧
      Respond (bound binds).handlers.entries ⟨['/', 'u', 'p'], [], []⟩ =
        .missing (Text.literal "handler does not exist for this destination: " ++ ['u', 'p']) ∧
      ¬ GivenTo (bound binds).handlers.entries ['/', 'u', 'p'] 0 := by
  intro binds
  have missing : Respond (bound binds).handlers.entries ⟨['/', 'u', 'p'], [], []⟩ =
      .missing (Text.literal "handler does not exist for this destination: " ++ ['u', 'p']) := rfl
  refine ⟨?_, rfl, missing, ?_⟩
  · unfold Plain
    decide
  · rintro ⟨call, given⟩
    rw [missing] at given
    cases given

end Qtalk.Rpc
