import Qtalk.Rpc.Dispatch

/-!
# The order of the map in `Handler`

`RespondMux.Handler` of `golang/rpc/responder.go` takes the first entry of the map that
answers to the path, and the order of a map is any order. Keys that end in a slash answer to
every path below them, so several may answer to one path.
-/

namespace Qtalk.Rpc
open Qtalk.Lib

variable {α : Type} [DecidableEq α] [Text α] {H : Type}

/-- `Handler` gives the same for every order of the map, and what is bound at the path itself
if anything is. -/
def OrderFree (m : RespondMux α H) (path : List α) : Prop :=
  ∃ found, (∀ order : List (List α × H), order.Perm m.handlers.entries →
      RespondMux.Handler order path = found) ∧
    ∀ h, m.handlers.get? path = some h → found = some h

theorem answersTo_self (path : List α) : answersTo path path = true := by
  simp [answersTo]

/-- Any entry that answers can come first. -/
theorem Handler_first {m : RespondMux α H} {path : List α} {e : List α × H}
    (he : e ∈ m.handlers.entries) (ha : answersTo path e.1 = true) :
    ∃ order : List (List α × H), order.Perm m.handlers.entries ∧
      RespondMux.Handler order path = some e.2 := by
  obtain ⟨front, back, split⟩ := List.append_of_mem he
  refine ⟨e :: (front ++ back), ?_, ?_⟩
  · rw [split]
    exact List.perm_middle.symm
  · unfold RespondMux.Handler RespondMux.selected
    have first : (e :: (front ++ back)).find? (fun e => answersTo path e.1) = some e :=
      List.find?_cons_of_pos ha
    rw [first]
    rfl

/-- In any order one that answers is found, if there is one. -/
theorem Handler_some {m : RespondMux α H} {path : List α} {order : List (List α × H)}
    (ho : order.Perm m.handlers.entries) {e : List α × H} (he : e ∈ m.handlers.entries)
    (ha : answersTo path e.1 = true) :
    ∃ f ∈ m.handlers.entries, answersTo path f.1 = true ∧
      RespondMux.Handler order path = some f.2 := by
  have some_found : (order.find? fun e => answersTo path e.1).isSome := by
    rw [List.find?_isSome]
    exact ⟨e, ho.mem_iff.mpr he, ha⟩
  obtain ⟨f, found⟩ := Option.isSome_iff_exists.mp some_found
  have answers := List.find?_some found
  refine ⟨f, ho.mem_iff.mp (List.mem_of_find?_eq_some found), answers, ?_⟩
  unfold RespondMux.Handler RespondMux.selected
  rw [found]
  rfl

/-- The order of the map does not matter exactly if all entries that answer to the path hold
one handler. -/
theorem order_free_iff (m : RespondMux α H) (path : List α) :
    OrderFree m path ↔ ∀ e ∈ m.handlers.entries, ∀ f ∈ m.handlers.entries,
      answersTo path e.1 = true → answersTo path f.1 = true → e.2 = f.2 := by
  constructor
  · rintro ⟨found, same, -⟩ e he f hf hae haf
    obtain ⟨first, hfirst, efound⟩ := Handler_first he hae
    obtain ⟨second, hsecond, ffound⟩ := Handler_first hf haf
    have both : some e.2 = some f.2 :=
      efound.symm.trans ((same first hfirst).trans ((same second hsecond).symm.trans ffound))
    exact Option.some.inj both
  · intro agree
    refine ⟨RespondMux.Handler m.handlers.entries path, fun order ho => ?_, fun h bound_at => ?_⟩
    · by_cases answered : ∃ e ∈ m.handlers.entries, answersTo path e.1 = true
      · obtain ⟨e, he, hae⟩ := answered
        obtain ⟨f, hf, haf, ffound⟩ := Handler_some ho he hae
        obtain ⟨g, hg, hag, gfound⟩ := Handler_some (List.Perm.refl _) he hae
        rw [ffound, gfound, agree f hf g hg haf hag]
      · have nothing : ∀ l : List (List α × H), l.Perm m.handlers.entries →
            RespondMux.Handler l path = none := by
          intro l hl
          unfold RespondMux.Handler RespondMux.selected
          rw [List.find?_eq_none.mpr, Option.map_none]
          exact fun e he hae => answered ⟨e, hl.mem_iff.mp he, hae⟩
        rw [nothing order ho, nothing _ (List.Perm.refl _)]
    · have he : (path, h) ∈ m.handlers.entries := Table.mem_entries.mpr bound_at
      obtain ⟨f, hf, haf, ffound⟩ := Handler_some (List.Perm.refl _) he (answersTo_self path)
      rw [ffound, agree f hf _ he haf (answersTo_self path)]

/-- With a subtree and a path below it bound to different handlers, a request for the path goes
to either. -/
theorem nested_paths_depend :
    let m : RespondMux Char Nat := bound [(['a', '/'], 0), (['a', '/', 'b'], 1)]
    RespondMux.Handler m.handlers.entries ['a', '/', 'b'] = some 0 ∧
      RespondMux.Handler m.handlers.entries.reverse ['a', '/', 'b'] = some 1 ∧
      ¬OrderFree m ['a', '/', 'b'] := by
  intro m
  have first : RespondMux.Handler m.handlers.entries ['a', '/', 'b'] = some 0 := by decide
  have second : RespondMux.Handler m.handlers.entries.reverse ['a', '/', 'b'] = some 1 := by decide
  refine ⟨first, second, ?_⟩
  rintro ⟨found, same, -⟩
  have one := (same _ (List.Perm.refl _)).symm.trans first
  have other := (same _ (List.reverse_perm _)).symm.trans second
  cases one.symm.trans other

end Qtalk.Rpc
