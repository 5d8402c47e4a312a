import Mathlib.Algebra.BigOperators.Group.List.Basic
import Mathlib.Algebra.Order.Ring.Nat

/-!
# Programs as trees of operations

A sequential program over an interface returns a value, or does an operation and goes on
with its answer. What an operation does and what it answers is left to whoever runs the
program, so that many of them can run side by side. A statement about a program is then one
about all answers: `Passes` says that no way through it gets around an operation of some
kind, and `Passes.bind` composes that along `do`.
-/

namespace Qtalk.Lib

/-- A program that returns an `α`; `Answer o` is the type of what operation `o` comes back
with. -/
inductive Program (Op : Type) (Answer : Op → Type) (α : Type) : Type where
  | ret (a : α)
  | op (o : Op) (k : Answer o → Program Op Answer α)

namespace Program

variable {Op : Type} {Answer : Op → Type} {α β : Type}

protected def bind : Program Op Answer α → (α → Program Op Answer β) → Program Op Answer β
  | ret a, f => f a
  | op o k, f => op o fun r => (k r).bind f

instance : Monad (Program Op Answer) where
  pure := ret
  bind := Program.bind

/-- A single operation. -/
def perform (o : Op) : Program Op Answer (Answer o) := op o ret

/-- `defer d`, in front of the rest of a function. -/
def deferring (d : Program Op Answer β) (p : Program Op Answer α) : Program Op Answer α := do
  let a ← p
  let _ ← d
  return a

/-- What a program that is through has returned. -/
def result : Program Op Answer α → Option α
  | ret a => some a
  | op _ _ => none

/-- The first thing the program does is an operation of kind `P`. -/
def First (P : Op → Prop) : Program Op Answer α → Prop
  | ret _ => False
  | op o _ => P o

/-- On every way through it the program does an operation of kind `P`, or it returns a value
with `Q`. -/
def Passes (P : Op → Prop) (Q : α → Prop) : Program Op Answer α → Prop
  | ret a => Q a
  | op o k => P o ∨ ∀ r, (k r).Passes P Q

variable {P : Op → Prop} {Q : α → Prop} {Q' : β → Prop}

@[simp] theorem ret_bind (a : α) (f : α → Program Op Answer β) :
    (ret a : Program Op Answer α) >>= f = f a := rfl

@[simp] theorem op_bind (o : Op) (k : Answer o → Program Op Answer α) (f : α → Program Op Answer β) :
    op o k >>= f = op o fun r => k r >>= f := rfl

theorem result_eq_some {p : Program Op Answer α} {a : α} : p.result = some a ↔ p = ret a := by
  cases p with
  | ret b => simp [result]
  | op o k => simp [result]

theorem First.bind {p : Program Op Answer α} (h : p.First P) (f : α → Program Op Answer β) :
    (p >>= f).First P := by
  cases p with
  | ret a => exact h.elim
  | op o k => exact h

theorem Passes.bind {p : Program Op Answer α} {f : α → Program Op Answer β} (h : p.Passes P Q)
    (hf : ∀ a, Q a → (f a).Passes P Q') : (p >>= f).Passes P Q' := by
  induction p with
  | ret a => exact hf a h
  | op o k ih =>
    rcases h with ho | hk
    · exact Or.inl ho
    · exact Or.inr fun r => ih r (hk r)

/-- Every program passes what it returns in the end. -/
theorem passes_any (p : Program Op Answer α) : p.Passes P fun _ => True := by
  induction p with
  | ret a => trivial
  | op o k ih => exact Or.inr ih

/-- Nothing gets around what is deferred. -/
theorem deferring_passes {d : Program Op Answer β} (p : Program Op Answer α)
    (hd : d.Passes P fun _ => False) : (deferring d p).Passes P Q := by
  apply (passes_any p).bind
  intro a _
  exact hd.bind fun _ h => h.elim

protected theorem bind_ret (p : Program Op Answer α) : p.bind ret = p := by
  induction p with
  | ret a => rfl
  | op o k ih => exact congrArg (op o) (funext ih)

protected theorem bind_assoc {γ : Type} (p : Program Op Answer α) (f : α → Program Op Answer β)
    (g : β → Program Op Answer γ) : (p.bind f).bind g = p.bind fun a => (f a).bind g := by
  induction p with
  | ret a => rfl
  | op o k ih => exact congrArg (op o) (funext ih)

instance : LawfulMonad (Program Op Answer) :=
  LawfulMonad.mk' (Program Op Answer) Program.bind_ret (fun _ _ => rfl) Program.bind_assoc

/-! ## Steps -/

/-- An operation and what it came back with. -/
structure Event (Op : Type) (Answer : Op → Type) where
  op : Op
  answer : Answer op

/-- With these events a program gets to what is left of it. -/
inductive Steps : Program Op Answer α → List (Event Op Answer) → Program Op Answer α → Prop where
  | nil (p : Program Op Answer α) : Steps p [] p
  | cons {o : Op} {k : Answer o → Program Op Answer α} (r : Answer o) {es : List (Event Op Answer)}
      {q : Program Op Answer α} (h : Steps (k r) es q) : Steps (op o k) (⟨o, r⟩ :: es) q

variable {es : List (Event Op Answer)}

theorem Steps.ret_cases {a : α} {q : Program Op Answer α} (h : Steps (ret a) es q) :
    es = [] ∧ q = ret a := by
  cases h
  exact ⟨rfl, rfl⟩

theorem Steps.op_cases {o : Op} {k : Answer o → Program Op Answer α} {q : Program Op Answer α}
    (h : Steps (op o k) es q) :
    (es = [] ∧ q = op o k) ∨ ∃ r es', es = ⟨o, r⟩ :: es' ∧ Steps (k r) es' q := by
  cases h with
  | nil => exact .inl ⟨rfl, rfl⟩
  | cons r h => exact .inr ⟨r, _, rfl, h⟩

/-- A program in sequence is in its first part, or behind it. -/
theorem Steps.bind_cases {p : Program Op Answer α} {f : α → Program Op Answer β}
    {q : Program Op Answer β} (h : Steps (p >>= f) es q) :
    (∃ p', Steps p es p' ∧ q = p' >>= f) ∨
      ∃ a es₁ es₂, es = es₁ ++ es₂ ∧ Steps p es₁ (ret a) ∧ Steps (f a) es₂ q := by
  induction p generalizing es with
  | ret a => exact .inr ⟨a, [], es, rfl, .nil _, h⟩
  | op o k ih =>
    rcases Steps.op_cases h with ⟨rfl, rfl⟩ | ⟨r, es', rfl, h'⟩
    · exact .inl ⟨op o k, .nil _, rfl⟩
    · rcases ih r h' with ⟨p', hp, hq⟩ | ⟨a, es₁, es₂, rfl, h₁, h₂⟩
      · exact .inl ⟨p', .cons r hp, hq⟩
      · exact .inr ⟨a, ⟨o, r⟩ :: es₁, es₂, rfl, .cons r h₁, h₂⟩

theorem Steps.snoc {p : Program Op Answer α} {o : Op} {k : Answer o → Program Op Answer α}
    (h : Steps p es (op o k)) (r : Answer o) : Steps p (es ++ [⟨o, r⟩]) (k r) := by
  generalize hq : op o k = q at h
  induction h with
  | nil p =>
    subst hq
    exact .cons r (.nil _)
  | cons r' _ ih => exact .cons r' (ih hq)

/-- Where nothing is done of kind `P`, what comes back has `Q`. -/
theorem Passes.returns {p : Program Op Answer α} {a : α} (h : p.Passes (fun _ => False) Q)
    (hs : Steps p es (ret a)) : Q a := by
  generalize hq : ret a = q at hs
  induction hs with
  | nil p =>
    subst hq
    exact h
  | cons r _ ih => exact ih (h.resolve_left id r) hq

/-! ## Only operations of a kind -/

/-- Every operation of the program is of kind `P`. -/
def Only (P : Op → Prop) : Program Op Answer α → Prop
  | ret _ => True
  | op o k => P o ∧ ∀ r, (k r).Only P

theorem Only.bind {p : Program Op Answer α} {f : α → Program Op Answer β} (h : p.Only P)
    (hf : ∀ a, (f a).Only P) : (p >>= f).Only P := by
  induction p with
  | ret a => exact hf a
  | op o k ih => exact ⟨h.1, fun r => ih r (h.2 r)⟩

theorem Only.steps {p q : Program Op Answer α} (h : p.Only P) (hs : Steps p es q) : q.Only P := by
  induction hs with
  | nil p => exact h
  | cons r _ ih => exact ih (h.2 r)

end Program

end Qtalk.Lib
