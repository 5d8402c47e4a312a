import Mathlib.Algebra.BigOperators.Group.List.Basic
import Mathlib.Algebra.Order.Ring.Nat

/-!
# Runs of a labelled transition function

A system is a partial function `next` from a state and a label to a state. `Run next ok`
are the states reached from a start by steps that each meet the condition `ok` on the
state before the step and its label; `ok` is how an assumption on the environment
enters. `Run.invariant` is the induction rule, `Run.of_exec` turns an evaluated list of
labels into a run.
-/

namespace Qtalk.Lib

variable {S A : Type}

/-- The states reached from `s₀` by steps that meet `ok`. -/
inductive Run (next : S → A → Option S) (ok : S → A → Prop) (s₀ : S) : S → Prop where
  | start : Run next ok s₀ s₀
  | step {s s' : S} (a : A) (run : Run next ok s₀ s) (hok : ok s a) (h : next s a = some s') :
      Run next ok s₀ s'

/-- No condition on the steps. -/
def anyStep : S → A → Prop := fun _ _ => True

instance (s : S) (a : A) : Decidable (anyStep s a) := .isTrue trivial

variable {next : S → A → Option S} {ok ok' : S → A → Prop} {s₀ s : S}

/-- What holds at the start and is kept by every step of a run holds in every state
reached. -/
theorem Run.invariant {I : S → Prop} (start : I s₀)
    (step : ∀ s a s', Run next ok s₀ s → I s → ok s a → next s a = some s' → I s')
    (run : Run next ok s₀ s) : I s := by
  induction run with
  | start => exact start
  | step a hr hok h ih => exact step _ a _ hr ih hok h

/-- The steps of a run meet another condition, if each does that is taken in a state
reached so far under both. -/
theorem Run.strengthen (run : Run next ok s₀ s)
    (h : ∀ s a s', Run next ok s₀ s → Run next ok' s₀ s → ok s a → next s a = some s' → ok' s a) :
    Run next ok' s₀ s := by
  induction run with
  | start => exact .start
  | step a hr hok hn ih => exact .step a ih (h _ a _ hr ih hok hn) hn

/-- A weaker condition admits more runs. -/
theorem Run.weaken (run : Run next ok s₀ s) (h : ∀ s a, ok s a → ok' s a) : Run next ok' s₀ s :=
  run.strengthen fun s a _ _ _ hok _ => h s a hok

theorem Run.any (run : Run next ok s₀ s) : Run next anyStep s₀ s :=
  run.weaken fun _ _ _ => trivial

theorem Run.trans {s' : S} (run : Run next ok s₀ s) (more : Run next ok s s') :
    Run next ok s₀ s' := by
  induction more with
  | start => exact run
  | step a _ hok hn ih => exact .step a ih hok hn

/-- What no step makes true again held all along. -/
theorem Run.always {P : S → Prop}
    (mono : ∀ s a s', Run next ok s₀ s → next s a = some s' → P s' → P s) (run : Run next ok s₀ s)
    (h : P s) : Run next (fun s a => ok s a ∧ P s) s₀ s := by
  induction run with
  | start => exact .start
  | step a hr hok hn ih =>
    have hp := mono _ a _ hr hn h
    exact .step a (ih hp) ⟨hok, hp⟩ hn

/-- From here no sequence of steps that meet `ok` goes on for ever. -/
def Terminates (next : S → A → Option S) (ok : S → A → Prop) (s : S) : Prop :=
  Acc (fun s' s => ∃ a, ok s a ∧ next s a = some s') s

/-- An invariant with a rank that every step takes down. -/
theorem Terminates.of_rank {I : S → Nat → Prop}
    (dec : ∀ s n a s', I s n → ok s a → next s a = some s' → ∃ m, m < n ∧ I s' m) {n : Nat}
    (h : I s n) : Terminates next ok s := by
  induction n using Nat.strongRecOn generalizing s with
  | ind n ih =>
    refine .intro s fun s' hstep => ?_
    obtain ⟨a, hok, hn⟩ := hstep
    obtain ⟨m, hless, h'⟩ := dec s n a s' h hok hn
    exact ih m hless h'

/-- Each step takes something off a measure. -/
theorem Terminates.of_work (work : S → Nat)
    (dec : ∀ s a s', ok s a → next s a = some s' → work s' < work s) (s : S) : Terminates next ok s :=
  of_rank (I := fun s n => work s = n)
    (fun s _ a s' h hok hn => ⟨work s', h ▸ dec s a s' hok hn, rfl⟩) rfl

/-- Whatever terminates comes to rest. -/
theorem Terminates.rests (h : Terminates next ok s) :
    ∃ s', Run next ok s s' ∧ ∀ a, ok s' a → next s' a = none := by
  induction h with
  | intro s _ ih =>
    by_cases hrest : ∀ a, ok s a → next s a = none
    · exact ⟨s, .start, hrest⟩
    · push Not at hrest
      obtain ⟨a, hok, hne⟩ := hrest
      obtain ⟨s1, hs1⟩ := Option.ne_none_iff_exists'.mp hne
      obtain ⟨s', run, hs'⟩ := ih s1 ⟨a, hok, hs1⟩
      exact ⟨s', (Run.start.step a hok hs1).trans run, hs'⟩

/-- Take the steps of a list, as long as each is enabled and meets the condition. -/
def exec (next : S → A → Option S) (ok : S → A → Prop) [∀ s a, Decidable (ok s a)] :
    S → List A → Option S
  | s, [] => some s
  | s, a :: as =>
    if ok s a then
      match next s a with
      | some s' => exec next ok s' as
      | none => none
    else none

theorem Run.exec [∀ s a, Decidable (ok s a)] {as : List A} {s' : S} (run : Run next ok s₀ s)
    (h : exec next ok s as = some s') : Run next ok s₀ s' := by
  induction as generalizing s with
  | nil => cases h; exact run
  | cons a as ih =>
    rw [Lib.exec] at h
    split at h
    · next hok =>
      split at h
      · next s1 hn => exact ih (.step a run hok hn) h
      · cases h
    · cases h

/-- A list of steps that leads to a state with a decidable property. -/
theorem Run.of_exec (next : S → A → Option S) (ok : S → A → Prop) [∀ s a, Decidable (ok s a)]
    (s₀ : S) (as : List A) (p : S → Bool) (h : ((Lib.exec next ok s₀ as).any p) = true) :
    ∃ s, Run next ok s₀ s ∧ p s = true := by
  cases he : Lib.exec next ok s₀ as with
  | none => simp [he] at h
  | some s => exact ⟨s, Run.start.exec he, by simpa [he] using h⟩

/-! ## Steps that are always enabled -/

section
variable {f : S → A → S} {P : S → Prop} {a : A} {as : List A}

/-- `P` holds in every state that the steps of a list, taken from `s`, pass through. -/
def Throughout (f : S → A → S) (P : S → Prop) (s : S) (as : List A) : Prop :=
  ∀ n, P ((as.take n).foldl f s)

/-- Each step is taken in a state in which it meets the condition. -/
def Meets (f : S → A → S) (ok : S → A → Prop) : S → List A → Prop
  | _, [] => True
  | s, a :: as => ok s a ∧ Meets f ok (f s a) as

theorem throughout_nil : Throughout f P s [] ↔ P s := by
  constructor
  · exact fun h => h 0
  · intro h n
    rw [List.take_nil]
    exact h

theorem throughout_cons : Throughout f P s (a :: as) ↔ P s ∧ Throughout f P (f s a) as := by
  constructor
  · exact fun h => ⟨h 0, fun n => h (n + 1)⟩
  · rintro ⟨hs, hrest⟩ n
    cases n with
    | zero => exact hs
    | succ n => exact hrest n

theorem Throughout.of_invariant {I : S → Prop} (holds : ∀ s, I s → P s)
    (step : ∀ s, ∀ a ∈ as, I s → I (f s a)) (h : I s) : Throughout f P s as := by
  induction as generalizing s with
  | nil => exact throughout_nil.mpr (holds s h)
  | cons a as ih =>
    refine throughout_cons.mpr ⟨holds s h, ih (fun s b hb => step s b ?_) ?_⟩
    · exact List.mem_cons_of_mem a hb
    · exact step s a List.mem_cons_self h

/-- If an invariant is kept by just those steps that meet a condition, and the others lead out of
`P`, then a run is within `P` exactly if its steps meet the condition. -/
theorem throughout_iff_meets {I : S → Prop} {ok : S → A → Prop} (holds : ∀ s, I s → P s)
    (kept : ∀ s a, I s → ok s a → I (f s a)) (lost : ∀ s a, I s → ¬ ok s a → ¬ P (f s a)) (h : I s) :
    Throughout f P s as ↔ Meets f ok s as := by
  induction as generalizing s with
  | nil => exact iff_of_true (throughout_nil.mpr (holds s h)) trivial
  | cons a as ih =>
    rw [throughout_cons, Meets]
    by_cases hok : ok s a
    · rw [ih (kept s a h hok)]
      exact ⟨fun hr => ⟨hok, hr.2⟩, fun hr => ⟨holds s h, hr.2⟩⟩
    · exact iff_of_false (fun hr => lost s a h hok (hr.2 0)) fun hr => hok hr.1

end

end Qtalk.Lib
