import Captain.OrderedSet

/-!
# `Timer` and `TimerManager` (`captain/timer.cpp`)

Timers live at addresses; `heap` holds the objects and `m_timers` is the `std::set` of their
addresses, kept in the order of `Timer::Comparator`, which reads `m_next` of the objects. Clock
readings and periods are 64-bit and wrap around as in the source.

Three misuses of the set are faults: erasing its end (`eraseEnd`), dereferencing `begin()` of an
empty set (`derefEnd`), and writing `m_next` of a timer that is in it (`rekeyInSet`), which
would change the order under the set.

The functions that take the lock more than once, or do something after they release it, are
given in sections: `TimerManager.isEmpty` and `TimerManager.expirePass` are the two sections of
`listExpiredCb`; `insertTimer` is `addTimer(val, lock)` up to the unlock and says whether
`onTimerInsertedAtFront` is to be called.
-/

namespace Captain

open OrderedSet

/-- A `std::function<void()>` that is not empty: a function of the caller, or the one that
`addConditionTimer` binds to `OnTimer`. -/
inductive Callback (φ ω : Type)
  | plain (cb : φ)
  | onTimer (weak_cond : ω) (cb : Option φ)
  deriving DecidableEq, Repr

/-- The members of `Timer`; an empty `m_cb` is `none`. -/
structure Timer (φ ω : Type) where
  m_recurring : Bool := false
  m_ms : UInt64 := 0
  m_next : UInt64 := 0
  m_cb : Option (Callback φ ω) := none

inductive TimerFault
  | eraseEnd
  | derefEnd
  | rekeyInSet
  deriving DecidableEq, Repr

variable {φ ω : Type}

/-- `Timer::Comparator::operator()`, on null pointers or pointers with what they point to. -/
def Timer.Comparator (lhs rhs : Option (Nat × Timer φ ω)) : Bool :=
  match lhs, rhs with
  | none, none => false
  | none, some _ => true
  | some _, none => false
  | some (p, l), some (q, r) =>
    if l.m_next < r.m_next then true
    else if r.m_next < l.m_next then false
    else p < q

structure TimerManager (φ ω : Type) where
  heap : Nat → Option (Timer φ ω)
  m_timers : List Nat
  m_tickled : Bool
  m_previouseTime : UInt64

namespace TimerManager

/-- `TimerManager::TimerManager()`. -/
def new (now : UInt64) : TimerManager φ ω := ⟨fun _ => none, [], false, now⟩

/-- The timer at an address. -/
def timer (m : TimerManager φ ω) (t : Nat) : Timer φ ω := (m.heap t).getD {}

def put (m : TimerManager φ ω) (t : Nat) (val : Timer φ ω) : TimerManager φ ω :=
  { m with heap := fun a => if a = t then some val else m.heap a }

/-- The order of the set at the moment. -/
def less (m : TimerManager φ ω) (a b : Nat) : Bool :=
  Timer.Comparator (some (a, m.timer a)) (some (b, m.timer b))

/-- `m_timers.find(t)`, then `m_timers.erase(it)`. -/
def findErase (m : TimerManager φ ω) (t : Nat) : Except TimerFault (TimerManager φ ω) :=
  match erase (find m.less t m.m_timers) m.m_timers with
  | none => .error .eraseEnd
  | some ts => .ok { m with m_timers := ts }

/-- `t->m_next = next`. -/
def setNext (m : TimerManager φ ω) (t : Nat) (next : UInt64) :
    Except TimerFault (TimerManager φ ω) :=
  if t ∈ m.m_timers then .error .rekeyInSet else .ok (m.put t { m.timer t with m_next := next })

/-- `m_timers.insert(t)`. -/
def insertSet (m : TimerManager φ ω) (t : Nat) : TimerManager φ ω :=
  { m with m_timers := (insert m.less t m.m_timers).1 }

/-- `TimerManager::addTimer(val, lock)` up to `lock.unlock()`: the flag says whether
`onTimerInsertedAtFront` is called after it. -/
def insertTimer (m : TimerManager φ ω) (val : Nat) : TimerManager φ ω × Bool :=
  let it := (insert m.less val m.m_timers).2
  let m := m.insertSet val
  let at_front := it = 0 ∧ m.m_tickled = false
  if at_front then ({ m with m_tickled := true }, true) else (m, false)

/-- `Timer::cancel`. -/
def cancel (m : TimerManager φ ω) (t : Nat) : Except TimerFault (TimerManager φ ω × Bool) :=
  if (m.timer t).m_cb.isSome then do
    let m := m.put t { m.timer t with m_cb := none }
    let m ← m.findErase t
    .ok (m, true)
  else .ok (m, false)

/-- `Timer::refresh`; `now` is the clock reading it takes under the lock. -/
def refresh (m : TimerManager φ ω) (t : Nat) (now : UInt64) :
    Except TimerFault (TimerManager φ ω × Bool) :=
  if (m.timer t).m_cb.isNone then .ok (m, false)
  else if find m.less t m.m_timers = m.m_timers.length then .ok (m, false)
  else do
    let m ← m.findErase t
    let m ← m.setNext t (now + (m.timer t).m_ms)
    .ok (m.insertSet t, true)

/-- `Timer::reset`, up to the unlock in `addTimer`: its result, and whether
`onTimerInsertedAtFront` is called after it. -/
def reset (m : TimerManager φ ω) (t : Nat) (ms : UInt64) (from_now : Bool) (now : UInt64) :
    Except TimerFault (TimerManager φ ω × Bool × Bool) :=
  if ms = (m.timer t).m_ms ∧ from_now = false then .ok (m, true, false)
  else if (m.timer t).m_cb.isNone then .ok (m, false, false)
  else if find m.less t m.m_timers = m.m_timers.length then .ok (m, false, false)
  else do
    let m ← m.findErase t
    let start := if from_now then now else (m.timer t).m_next - (m.timer t).m_ms
    let m := m.put t { m.timer t with m_ms := ms }
    let m ← m.setNext t (start + ms)
    let (m, at_front) := m.insertTimer t
    .ok (m, true, at_front)

/-- `TimerManager::addTimer(ms, cb, recurring)` up to the unlock: the new timer gets the address
`t` and is armed at the clock reading `now`, which its constructor takes. -/
def addTimer (m : TimerManager φ ω) (t : Nat) (ms : UInt64) (cb : Option (Callback φ ω))
    (recurring : Bool) (now : UInt64) : TimerManager φ ω × Bool :=
  (m.put t { m_recurring := recurring, m_ms := ms, m_next := now + ms, m_cb := cb }).insertTimer t

/-- `TimerManager::addConditionTimer`. -/
def addConditionTimer (m : TimerManager φ ω) (t : Nat) (ms : UInt64) (cb : Option φ)
    (weak_cond : ω) (recurring : Bool) (now : UInt64) : TimerManager φ ω × Bool :=
  m.addTimer t ms (some (.onTimer weak_cond cb)) recurring now

/-- `TimerManager::getNextTimer`. -/
def getNextTimer (m : TimerManager φ ω) (now_ms : UInt64) : TimerManager φ ω × UInt64 :=
  let m := { m with m_tickled := false }
  match m.m_timers.head? with
  | none => (m, -1)
  | some next =>
    if now_ms ≥ (m.timer next).m_next then (m, 0) else (m, (m.timer next).m_next - now_ms)

/-- `TimerManager::detectClockRollover`. -/
def detectClockRollover (m : TimerManager φ ω) (now_ms : UInt64) : TimerManager φ ω × Bool :=
  let rollover := now_ms < m.m_previouseTime && now_ms < m.m_previouseTime - 60 * 60 * 1000
  ({ m with m_previouseTime := now_ms }, rollover)

/-- The section of `listExpiredCb` under the read lock: with an empty set it returns. -/
def isEmpty (m : TimerManager φ ω) : Bool := m.m_timers.isEmpty

/-- The iterator up to which `listExpiredCb` takes timers out of the set: all of them after a
rollover, else those due at `now_ms`. `now_timer` is the address of the timer it compares with. -/
def expiredEnd (m : TimerManager φ ω) (now_ms : UInt64) (now_timer : Nat) (rollover : Bool) :
    Nat :=
  let it :=
    if rollover then m.m_timers.length
    else lowerBound
      (fun t => Timer.Comparator (some (t, m.timer t)) (some (now_timer, { m_next := now_ms })))
      m.m_timers
  it + ((m.m_timers.drop it).takeWhile fun t => (m.timer t).m_next = now_ms).length

/-- One round of the loop of `listExpiredCb` over `expired`, after the callback is copied. -/
def fireOne (m : TimerManager φ ω) (now_ms : UInt64) (timer : Nat) :
    Except TimerFault (TimerManager φ ω) :=
  if (m.timer timer).m_recurring then do
    let m ← m.setNext timer (now_ms + (m.timer timer).m_ms)
    .ok (m.insertSet timer)
  else .ok (m.put timer { m.timer timer with m_cb := none })

/-- The loop of `listExpiredCb` over `expired`, with the callbacks it appends to `cbs`. -/
def fire (now_ms : UInt64) :
    List Nat → TimerManager φ ω →
      Except TimerFault (TimerManager φ ω × List (Option (Callback φ ω)))
  | [], m => .ok (m, [])
  | timer :: expired, m => do
    let m' ← m.fireOne now_ms timer
    let (m', cbs) ← fire now_ms expired m'
    .ok (m', (m.timer timer).m_cb :: cbs)

/-- `(*m_timers.begin())->m_next > now_ms`. -/
def beginAfter (m : TimerManager φ ω) (now_ms : UInt64) : Except TimerFault Bool :=
  match m.m_timers.head? with
  | none => .error .derefEnd
  | some first => .ok (decide ((m.timer first).m_next > now_ms))

/-- The rest of `listExpiredCb` once something may be due: the timers it takes out of the set
(`expired`) and the callbacks it appends to `cbs`. -/
def expireDue (m : TimerManager φ ω) (now_ms : UInt64) (now_timer : Nat) (rollover : Bool) :
    Except TimerFault (TimerManager φ ω × List Nat × List (Option (Callback φ ω))) := do
  let it := m.expiredEnd now_ms now_timer rollover
  let expired := m.m_timers.take it
  let (m, cbs) ← fire now_ms expired { m with m_timers := m.m_timers.drop it }
  .ok (m, expired, cbs)

/-- The section of `listExpiredCb` under the write lock. -/
def expirePass (m : TimerManager φ ω) (now_ms : UInt64) (now_timer : Nat) :
    Except TimerFault (TimerManager φ ω × List Nat × List (Option (Callback φ ω))) :=
  let (m, rollover) := m.detectClockRollover now_ms
  if rollover then m.expireDue now_ms now_timer rollover
  else do
    if ← m.beginAfter now_ms then .ok (m, [], []) else m.expireDue now_ms now_timer rollover

/-- `TimerManager::listExpiredCb`, called alone. -/
def listExpiredCb (m : TimerManager φ ω) (now_ms : UInt64) (now_timer : Nat) :
    Except TimerFault (TimerManager φ ω × List Nat × List (Option (Callback φ ω))) :=
  if m.isEmpty then .ok (m, [], []) else m.expirePass now_ms now_timer

end TimerManager

end Captain
