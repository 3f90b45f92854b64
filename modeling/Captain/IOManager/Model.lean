import Captain.Scheduler.Queue
import Mathlib.Logic.Function.Basic

/-!
# The descriptor events of `IOManager` (`captain/iomanager.cpp`)

`FdContext` objects live at addresses; `m_fdContexts` is the table of their addresses, which
`contextResize` makes longer or shorter (a context dropped from the table is not freed). Event
sets and the masks of `epoll` are 32-bit words, as in the source.

`epoll_ctl` may succeed or fail at every call: the outcome is the argument `rt` (`true` for the
return value 0). `interest` is what `epoll` was last told about each descriptor. `scheduled` lists
what was given to `Scheduler::schedule`, oldest first.

`m_pendingEventCount` is an integer here; a value below zero is a wrap-around of the counter. The
cast `(int)m_fdContexts.size()` is exact for tables of fewer than 2³¹ contexts.

The functions that take two locks, one after the other, are given in sections: `lookup` and
`growAndGet` work on the table under `m_mutex`; `addLocked`, `delLocked`, `cancelLocked`,
`cancelAllLocked` and `dispatch` work on one context under its mutex.
-/

namespace Captain

/-- The single events of `IOManager::Event`. -/
inductive Event
  | READ
  | WRITE
  deriving DecidableEq, Repr

/-- The bit of an event. -/
def Event.bit : Event → UInt32
  | .READ => 0x1
  | .WRITE => 0x4

def EPOLLIN : UInt32 := 0x1
def EPOLLOUT : UInt32 := 0x4
def EPOLLERR : UInt32 := 0x8
def EPOLLHUP : UInt32 := 0x10
def EPOLLET : UInt32 := 0x80000000

inductive EpollOp
  | ADD
  | MOD
  | DEL
  deriving DecidableEq, Repr

structure EventContext (σ φ ψ : Type) where
  scheduler : Option σ := none
  fiber : Option ψ := none
  cb : Option φ := none

structure FdContext (σ φ ψ : Type) where
  read : EventContext σ φ ψ := {}
  write : EventContext σ φ ψ := {}
  fd : Nat := 0
  events : UInt32 := 0

/-- Assertions of the source, and steps that have no meaning. -/
inductive IOFault
  | assertAdd
  | assertEmpty
  | assertExec
  | assertTrigger
  | assertCancelAll
  | nullScheduler
  | badIndex
  deriving DecidableEq, Repr

variable {σ φ ψ : Type}

namespace FdContext

def getContext (c : FdContext σ φ ψ) : Event → EventContext σ φ ψ
  | .READ => c.read
  | .WRITE => c.write

def setContext (c : FdContext σ φ ψ) (event : Event) (ctx : EventContext σ φ ψ) :
    FdContext σ φ ψ :=
  match event with
  | .READ => { c with read := ctx }
  | .WRITE => { c with write := ctx }

/-- `FdContext::resetContext`. -/
def resetContext (c : FdContext σ φ ψ) (event : Event) : FdContext σ φ ψ := c.setContext event {}

/-- `FdContext::triggerEvent`, with what it gives to the scheduler of the event context. Handing
over swaps the callback or the fiber out of the context. -/
def triggerEvent (c : FdContext σ φ ψ) (event : Event) :
    Except IOFault (FdContext σ φ ψ × Option (σ × Task φ ψ)) :=
  if c.events &&& event.bit = 0 then .error .assertTrigger
  else
    let c := { c with events := c.events &&& ~~~event.bit }
    let ctx := c.getContext event
    match ctx.scheduler, ctx.cb with
    | none, _ => .error .nullScheduler
    | some s, some cb =>
      .ok (c.setContext event { ctx with cb := none, scheduler := none }, some (s, .cb cb))
    | some s, none =>
      .ok (c.setContext event { ctx with fiber := none, scheduler := none },
        ctx.fiber.map fun fiber => (s, .fiber fiber))

end FdContext

structure IOManager (σ φ ψ : Type) where
  heap : Nat → FdContext σ φ ψ
  next : Nat
  m_fdContexts : List Nat
  m_pendingEventCount : Int
  interest : Nat → Option UInt32
  scheduled : List (σ × Task φ ψ)

/-- What a thread has at hand in `addEvent`: `Scheduler::GetThis()`, and `Fiber::GetThis()` with
whether its state is `EXEC`. -/
structure Env (σ ψ : Type) where
  scheduler : Option σ
  fiber : ψ
  exec : Bool

namespace IOManager

/-- `vector::resize(size)`, then a new context in each slot that has none. -/
def contextResize (m : IOManager σ φ ψ) (size : Nat) : IOManager σ φ ψ :=
  let old := m.m_fdContexts.length
  if size ≤ old then { m with m_fdContexts := m.m_fdContexts.take size }
  else
    { m with
      heap := fun a =>
        if m.next ≤ a ∧ a < m.next + (size - old) then { fd := old + (a - m.next) } else m.heap a
      next := m.next + (size - old)
      m_fdContexts := m.m_fdContexts ++ (List.range (size - old)).map fun i => m.next + i }

/-- `IOManager::IOManager`, as far as the contexts go. -/
def new : IOManager σ φ ψ :=
  contextResize ⟨fun _ => {}, 0, [], 0, fun _ => none, []⟩ 32

/-- The section under the read lock: the context of `fd`, if the table is long enough. -/
def lookup (m : IOManager σ φ ψ) (fd : Nat) : Option Nat :=
  if m.m_fdContexts.length > fd then m.m_fdContexts[fd]? else none

/-- The section of `addEvent` under the write lock. -/
def growAndGet (m : IOManager σ φ ψ) (fd : Nat) : Except IOFault (IOManager σ φ ψ × Nat) :=
  let m := m.contextResize (fd * 3 / 2)
  match m.m_fdContexts[fd]? with
  | some a => .ok (m, a)
  | none => .error .badIndex

def setCtx (m : IOManager σ φ ψ) (a : Nat) (c : FdContext σ φ ψ) : IOManager σ φ ψ :=
  { m with heap := Function.update m.heap a c }

/-- A successful `epoll_ctl`. -/
def epollCtl (m : IOManager σ φ ψ) (op : EpollOp) (fd : Nat) (events : UInt32) :
    IOManager σ φ ψ :=
  { m with interest := Function.update m.interest fd (if op = .DEL then none else some events) }

/-- `fd_ctx->triggerEvent(event); --m_pendingEventCount;` -/
def trigger (m : IOManager σ φ ψ) (a : Nat) (event : Event) : Except IOFault (IOManager σ φ ψ) := do
  let (c, task) ← (m.heap a).triggerEvent event
  .ok { m.setCtx a c with
    scheduled := m.scheduled ++ task.toList
    m_pendingEventCount := m.m_pendingEventCount - 1 }

/-- `trigger` behind a test. -/
def triggerIf (b : Bool) (m : IOManager σ φ ψ) (a : Nat) (event : Event) :
    Except IOFault (IOManager σ φ ψ) :=
  if b then m.trigger a event else .ok m

/-- `addEvent` under the mutex of the context: 0 on success, -1 on failure. -/
def addLocked (m : IOManager σ φ ψ) (a fd : Nat) (event : Event) (cb : Option φ) (env : Env σ ψ)
    (rt : Bool) : Except IOFault (IOManager σ φ ψ × Int) :=
  let c := m.heap a
  if c.events &&& event.bit ≠ 0 then .error .assertAdd
  else
    let op := if c.events ≠ 0 then EpollOp.MOD else .ADD
    if rt = false then .ok (m, -1)
    else
      let m := m.epollCtl op fd (EPOLLET ||| c.events ||| event.bit)
      let c := { c with events := c.events ||| event.bit }
      let ctx := c.getContext event
      if ctx.scheduler.isSome ∨ ctx.fiber.isSome ∨ ctx.cb.isSome then .error .assertEmpty
      else
        let m := { m with m_pendingEventCount := m.m_pendingEventCount + 1 }
        match cb with
        | some cb =>
          .ok (m.setCtx a (c.setContext event { scheduler := env.scheduler, cb := some cb }), 0)
        | none =>
          if env.exec = false then .error .assertExec
          else
            .ok (m.setCtx a (c.setContext event
              { scheduler := env.scheduler, fiber := some env.fiber }), 0)

/-- `delEvent` under the mutex of the context. -/
def delLocked (m : IOManager σ φ ψ) (a fd : Nat) (event : Event) (rt : Bool) :
    IOManager σ φ ψ × Bool :=
  let c := m.heap a
  if c.events &&& event.bit = 0 then (m, false)
  else
    let new_events := c.events &&& ~~~event.bit
    let op := if new_events ≠ 0 then EpollOp.MOD else .DEL
    if rt = false then (m, false)
    else
      let m := m.epollCtl op fd (EPOLLET ||| new_events)
      let m := { m with m_pendingEventCount := m.m_pendingEventCount - 1 }
      (m.setCtx a ({ c with events := new_events }.resetContext event), true)

/-- `cancelEvent` under the mutex of the context. -/
def cancelLocked (m : IOManager σ φ ψ) (a fd : Nat) (event : Event) (rt : Bool) :
    Except IOFault (IOManager σ φ ψ × Bool) :=
  let c := m.heap a
  if c.events &&& event.bit = 0 then .ok (m, false)
  else
    let new_events := c.events &&& ~~~event.bit
    let op := if new_events ≠ 0 then EpollOp.MOD else .DEL
    if rt = false then .ok (m, false)
    else do
      let m := m.epollCtl op fd (EPOLLET ||| new_events)
      let m ← m.trigger a event
      .ok (m, true)

/-- `cancelAll` under the mutex of the context. -/
def cancelAllLocked (m : IOManager σ φ ψ) (a fd : Nat) (rt : Bool) :
    Except IOFault (IOManager σ φ ψ × Bool) :=
  let c := m.heap a
  if c.events = 0 then .ok (m, false)
  else if rt = false then .ok (m, false)
  else do
    let m := m.epollCtl .DEL fd 0
    let m ← triggerIf ((m.heap a).events &&& Event.READ.bit != 0) m a .READ
    let m ← triggerIf ((m.heap a).events &&& Event.WRITE.bit != 0) m a .WRITE
    if (m.heap a).events ≠ 0 then .error .assertCancelAll else .ok (m, true)

/-- What `idle` makes of the events `epoll_wait` reports: an error or a hang-up stands for both
directions. -/
def realEvents (events : UInt32) : UInt32 :=
  let events := if events &&& (EPOLLERR ||| EPOLLHUP) ≠ 0 then events ||| EPOLLIN ||| EPOLLOUT
    else events
  (if events &&& EPOLLIN ≠ 0 then Event.READ.bit else 0) |||
    (if events &&& EPOLLOUT ≠ 0 then Event.WRITE.bit else 0)

/-- The dispatch of one reported context in `idle`, under the mutex of the context. -/
def dispatch (m : IOManager σ φ ψ) (a : Nat) (events : UInt32) (rt : Bool) :
    Except IOFault (IOManager σ φ ψ) :=
  let c := m.heap a
  let real_events := realEvents events
  if c.events &&& real_events = 0 then .ok m
  else
    let left_events := c.events &&& ~~~real_events
    let op := if left_events ≠ 0 then EpollOp.MOD else .DEL
    if rt = false then .ok m
    else do
      let m := m.epollCtl op c.fd (EPOLLET ||| left_events)
      let m ← triggerIf (real_events &&& Event.READ.bit != 0) m a .READ
      triggerIf (real_events &&& Event.WRITE.bit != 0) m a .WRITE

/-! ## The calls, made alone -/

/-- `IOManager::addEvent`. -/
def addEvent (m : IOManager σ φ ψ) (fd : Nat) (event : Event) (cb : Option φ) (env : Env σ ψ)
    (rt : Bool) : Except IOFault (IOManager σ φ ψ × Int) :=
  match m.lookup fd with
  | some a => m.addLocked a fd event cb env rt
  | none => do
    let (m, a) ← m.growAndGet fd
    m.addLocked a fd event cb env rt

/-- `IOManager::delEvent`. -/
def delEvent (m : IOManager σ φ ψ) (fd : Nat) (event : Event) (rt : Bool) :
    IOManager σ φ ψ × Bool :=
  match m.lookup fd with
  | some a => m.delLocked a fd event rt
  | none => (m, false)

/-- `IOManager::cancelEvent`. -/
def cancelEvent (m : IOManager σ φ ψ) (fd : Nat) (event : Event) (rt : Bool) :
    Except IOFault (IOManager σ φ ψ × Bool) :=
  match m.lookup fd with
  | some a => m.cancelLocked a fd event rt
  | none => .ok (m, false)

/-- `IOManager::cancelAll`. -/
def cancelAll (m : IOManager σ φ ψ) (fd : Nat) (rt : Bool) :
    Except IOFault (IOManager σ φ ψ × Bool) :=
  match m.lookup fd with
  | some a => m.cancelAllLocked a fd rt
  | none => .ok (m, false)

end IOManager

end Captain
