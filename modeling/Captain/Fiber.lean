import Mathlib.Tactic.Cases

/-!
# `Fiber` (`captain/fiber.cpp`)

What a scheduler sees of a fiber: its state, its callback, and whether `m_ctx` holds the point where
the fiber is to go on. `swapIn` and `swapOut` set the state or the thread's current fiber and then
swap contexts; the swap back into the scheduler is what saves the fiber's context.
-/

namespace Captain

/-- `Fiber::State`. -/
inductive FiberState
  | INIT
  | HOLD
  | EXEC
  | TERM
  | READY
  | EXCEPT
  deriving DecidableEq, Repr

/-- The fiber has run its callback to the end. -/
def FiberState.ended : FiberState → Bool
  | .TERM | .EXCEPT => true
  | _ => false

structure Fiber (φ : Type) where
  m_state : FiberState
  m_cb : Option φ
  saved : Bool
  deriving DecidableEq, Repr

namespace Fiber

variable {φ : Type}

/-- `Fiber::Fiber(cb)`: `makecontext` makes the fiber start in `MainFunc`. -/
def make (cb : φ) : Fiber φ := ⟨.INIT, some cb, true⟩

/-- `Fiber::reset`, unless its assertion fails. -/
def reset (fiber : Fiber φ) (cb : Option φ) : Option (Fiber φ) :=
  if fiber.m_state = .TERM ∨ fiber.m_state = .EXCEPT ∨ fiber.m_state = .INIT then
    some ⟨.INIT, cb, true⟩
  else none

/-- `Fiber::swapIn` up to the fiber's own code, unless its assertion fails. -/
def swapIn (fiber : Fiber φ) : Option (Fiber φ) :=
  if fiber.m_state ≠ .EXEC then some { fiber with m_state := .EXEC, saved := false } else none

/-- `Fiber::YieldToReady` and `Fiber::YieldToHold`, before `swapOut`. -/
def yield (fiber : Fiber φ) (ready : Bool) : Fiber φ :=
  { fiber with m_state := if ready then .READY else .HOLD }

/-- `Fiber::MainFunc` after the callback, which has returned or thrown. -/
def finish (fiber : Fiber φ) (thrown : Bool) : Fiber φ :=
  if thrown then { fiber with m_state := .EXCEPT }
  else { fiber with m_state := .TERM, m_cb := none }

/-- `Fiber::swapOut`. -/
def swapOut (fiber : Fiber φ) : Fiber φ := { fiber with saved := true }

variable {fiber fiber' : Fiber φ} {cb : Option φ}

theorem reset_eq_some : fiber.reset cb = some fiber' ↔
    (fiber.m_state = .TERM ∨ fiber.m_state = .EXCEPT ∨ fiber.m_state = .INIT) ∧
      fiber' = ⟨.INIT, cb, true⟩ := by
  unfold reset
  split
  · exact ⟨fun h => ⟨‹_›, (Option.some.inj h).symm⟩, fun h => congrArg some h.2.symm⟩
  · exact ⟨fun h => absurd h.symm (Option.some_ne_none _), fun h => absurd h.1 ‹_›⟩

theorem swapIn_eq_some : fiber.swapIn = some fiber' ↔
    fiber.m_state ≠ .EXEC ∧ fiber' = { fiber with m_state := .EXEC, saved := false } := by
  unfold swapIn
  split
  · exact ⟨fun h => ⟨‹_›, (Option.some.inj h).symm⟩, fun h => congrArg some h.2.symm⟩
  · exact ⟨fun h => absurd h.symm (Option.some_ne_none _), fun h => absurd h.1 ‹_›⟩

end Fiber

end Captain
