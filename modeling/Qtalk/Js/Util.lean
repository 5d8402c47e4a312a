import Mathlib.Algebra.BigOperators.Group.List.Basic
import Mathlib.Algebra.Order.Ring.Nat

/-!
# The queue

`queue` of `javascript/mux/util.ts`. A waiter is what goes on once its promise is
resolved; an operation returns the waiters it resolves, and the caller sees to them.
-/

namespace Qtalk.Js

/-- `queue`, of objects `α` with waiters `ω`. -/
structure Queue (α ω : Type) where
  q : List α
  waiters : List ω
  closed : Bool
  deriving DecidableEq, Repr

namespace Queue

variable {α ω : Type}

/-- The constructor. -/
def new : Queue α ω := { q := [], waiters := [], closed := false }

/-- `push`: the waiter that gets the object, if one waits; `none` where it throws. -/
def push (s : Queue α ω) (obj : α) : Option (Queue α ω × Option ω) :=
  if s.closed then none
  else
    match s.waiters with
    | waiter :: waiters => some ({ s with waiters }, some waiter)
    | [] => some ({ s with q := s.q ++ [obj] }, none)

/-- `shift`: what it resolves with, undefined being `some none`, or `none` and `waiter`
waits. -/
def shift (s : Queue α ω) (waiter : ω) : Queue α ω × Option (Option α) :=
  if s.closed then (s, some none)
  else
    match s.q with
    | obj :: q => ({ s with q }, some (some obj))
    | [] => ({ s with waiters := s.waiters ++ [waiter] }, none)

/-- `close`, and the waiters it resolves with undefined. They stay in the array. -/
def close (s : Queue α ω) : Queue α ω × List ω :=
  if s.closed then (s, []) else ({ s with closed := true }, s.waiters)

end Queue

end Qtalk.Js
