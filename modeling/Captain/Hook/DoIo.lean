import Captain.Hook.Descriptor
import Captain.IOManager.Threads
import Captain.Timer.Steps

/-!
# `do_io` among its timers, the events and the descriptors (`captain/hook.cpp`)

Fibers are suspended in `do_io` for a descriptor to become ready. Beside them other fibers open and
close descriptors, workers find timers expired and events ready, and the callbacks of the expired
timers are run. A label is one section under a lock, one system call, or one access to what the
fibers share.

The timers and the events are those of `TimerManager.Threads` and `IOManager.Threads`, with the
fibers for threads. A call that `do_io` leaves to the system call at once is not in the state, nor
is what `tickle` writes to the pipe. All fibers run on one `IOManager`.
-/

namespace Captain

/-- The functions that timers and events are given: the one that `do_io` makes of `winfo`, `fd` and
`event`, and others. -/
inductive Lambda (χ : Type)
  | timeout (winfo fd : Nat) (event : Event)
  | other (f : χ)

/-- What waits for an event: the fiber of a call of `do_io`, with the number of its registration, or
another fiber. -/
inductive Waiter (χ : Type)
  | call (c n : Nat)
  | other (f : χ)

/-- The fibers: those of the calls of `do_io`, those that run the callbacks of expired timers, those
that open and close descriptors, and all others. -/
inductive Agent
  | call (c : Nat)
  | task (k : Nat)
  | desc (j : Nat)
  | worker (i : Nat)
  deriving DecidableEq, Repr

/-- How `do_io` begins. -/
inductive Entry
  | direct
  | closed
  | managed (timeout : UInt64)
  deriving DecidableEq, Repr

/-- `do_io` up to `retry`, given the context of `fd`. -/
def Entry.of (hook_enable : Bool) (timeout_so : Nat) (ctx : Option FdCtx) : Entry :=
  if hook_enable = false then .direct
  else
    match ctx with
    | none => .direct
    | some ctx =>
      if ctx.m_isClosed then .closed
      else if !ctx.m_isSocket || ctx.m_userNonblock then .direct
      else .managed (ctx.getTimeout timeout_so)

/-- What a system call comes to. -/
inductive Outcome
  | done (n : Nat)
  | again
  | interrupted
  | failed
  deriving DecidableEq, Repr

/-- Where a call of `do_io` stands. From `registering` on, `timer` is the timer that it has set. -/
inductive CallPc
  | trying
  | arming
  | inserting
  | registering (timer : Option Nat)
  | refused (timer : Option Nat)
  | waiting (timer : Option Nat)
  | resumed (timer : Option Nat)
  | checking
  | timedOut
  | returned (n : Int)
  deriving DecidableEq, Repr

/-- The call has returned, and let go of its `tinfo`. -/
def CallPc.over : CallPc → Bool
  | .timedOut | .returned _ => true
  | _ => false

/-- A call of `do_io`; `timeout` is its `to`. `cancelled` is `tinfo->cancelled`: the timer whose
callback has set it, if it is not 0. What follows is not in the source: how often the call has
registered its event, when it began, which file `fd` was then, whether `close` has woken it, and
whether it has made a system call on another file since. -/
structure Call where
  fd : Nat
  event : Event
  timeout : UInt64
  pc : CallPc := .trying
  cancelled : Option Nat := none
  registrations : Nat := 0
  began : UInt64
  file : Nat
  woken : Bool := false
  strayed : Bool := false
  deriving DecidableEq, Repr

/-- Where the callback of an expired timer stands. -/
inductive TaskPc
  | queued
  | locked
  | flagging
  | cancelling
  | holding
  | ended
  deriving DecidableEq, Repr

/-- `tmp` of `OnTimer`, which keeps `tinfo` alive. -/
def TaskPc.holds : TaskPc → Bool
  | .locked | .flagging | .cancelling | .holding => true
  | _ => false

/-- A callback in the queue of the scheduler: `OnTimer` with `weak_cond` and the function of
`do_io`, which `timer` was set for. -/
structure Expiry where
  timer : Nat
  weak_cond : Nat
  winfo : Nat
  fd : Nat
  event : Event
  pc : TaskPc := .queued
  deriving DecidableEq, Repr

/-- Where a fiber stands that opens or closes a descriptor. -/
inductive DescPc
  | idle
  | adopting (fd : Nat)
  | cancelling (fd : Nat)
  | holding (fd : Nat)
  | deleting (fd : Nat)
  | closing (fd : Nat)
  deriving DecidableEq, Repr

/-- The timers, among the fibers. -/
abbrev Timers (χ : Type) := TimerManager.Threads (Lambda χ) Nat Agent

/-- The events, among the fibers. -/
abbrev Events (χ : Type) := IOManager.Threads Unit (Lambda χ) (Waiter χ) Agent

/-- What the fibers share. `opened` counts how often the kernel has handed out a number; `armed` has
the timers set by calls, with the call and the clock reading, and `expired` those found expired,
with the reading. -/
structure System (χ : Type) where
  timers : Timers χ
  events : Events χ
  fds : Descriptors
  calls : Nat → Option Call
  tasks : List Expiry
  desc : Nat → DescPc
  opened : Nat → Nat
  armed : Nat → Option (Nat × UInt64)
  expired : List (Nat × UInt64)

/-- The arguments of the callback, if `do_io` has made it. -/
def timeoutOf {χ : Type} : Option (Callback (Lambda χ) Nat) → Option (Nat × Nat × Nat × Event)
  | some (.onTimer weak_cond (some (.timeout winfo fd event))) => some (weak_cond, winfo, fd, event)
  | _ => none

def Waiter.isOther {χ : Type} : Waiter χ → Bool
  | .call .. => false
  | .other _ => true

/-- The task is the fiber of the call `c`. -/
def Task.isCall {φ χ : Type} (c : Nat) : Task φ (Waiter χ) → Bool
  | .fiber (.call c' _) => c' = c
  | _ => false

/-- The task is the fiber of the call `c`, in its registration `n`. -/
def Task.isCallAt {φ χ : Type} (c n : Nat) : Task φ (Waiter χ) → Bool
  | .fiber (.call c' n') => c' = c && n' = n
  | _ => false

namespace System

variable {χ : Type}

inductive Label (χ : Type)
  | tick (now : UInt64)
  | timer (l : TimerManager.Label (Lambda χ) Nat Agent)
  | pass (i now_timer : Nat)
  | event (l : IOManager.Label Unit (Lambda χ) (Waiter χ) Agent)
  | setTimeout (fd type : Nat) (v : UInt64)
  | setUserNonblock (fd : Nat) (v : Bool)
  | socket (j fd : Nat) (f : File)
  | adopt (j : Nat)
  | close (j fd : Nat) (iom : Bool)
  | cancelAllFind (j : Nat)
  | cancelAllLock (j : Nat) (rt : Bool)
  | del (j : Nat)
  | close_f (j : Nat)
  | begin (c fd : Nat) (event : Event) (hook_enable : Bool) (timeout_so : Nat)
  | syscall (c : Nat) (outcome : Outcome)
  | construct (c t : Nat)
  | insert (c : Nat)
  | announce (c : Nat)
  | addEventFind (c : Nat)
  | addEventGrow (c : Nat)
  | addEventLock (c : Nat) (rt : Bool)
  | resume (c : Nat)
  | cancel (c : Nat)
  | check (c : Nat)
  | lockCond (k : Nat)
  | test (k : Nat)
  | flag (k : Nat)
  | cancelEventFind (k : Nat)
  | cancelEventLock (k : Nat) (rt : Bool)

/-! ## Other fibers -/

/-- What a worker does with timers, those of `do_io` apart; it may expire all of them, with `pass`.
-/
def foreignTimer (s : System χ) : TimerManager.Label (Lambda χ) Nat Agent → Bool
  | .construct (.worker _) _ _ cb _ => (timeoutOf cb).isNone
  | .cancel (.worker _) t | .refresh (.worker _) t | .reset (.worker _) t _ _ =>
    (s.armed t).isNone
  | .insert (.worker _) | .announce (.worker _) | .getNextTimer (.worker _)
  | .readClock (.worker _) | .test (.worker _) => true
  | _ => false

/-- What a worker does with events; it registers no call of `do_io`. -/
def foreignEvent : IOManager.Label Unit (Lambda χ) (Waiter χ) Agent → Bool
  | .find (.worker _) (.addEvent _ _ _ env) => env.fiber.isOther
  | .find (.worker _) _ | .grow (.worker _) | .lock (.worker _) _ | .wait (.worker _) _
  | .dispatch (.worker _) _ => true
  | _ => false

/-! ## What a step writes -/

def setCall (s : System χ) (c : Nat) (k : Call) : System χ :=
  { s with calls := Function.update s.calls c (some k) }

def setTask (s : System χ) (i : Nat) (x : Expiry) : System χ :=
  { s with tasks := s.tasks.set i x }

def setDesc (s : System χ) (j : Nat) (p : DescPc) : System χ :=
  { s with desc := Function.update s.desc j p }

/-- `weak_cond.lock()` succeeds: the call has not returned, or a callback has locked it. -/
def alive (s : System χ) (c : Nat) : Bool :=
  (s.calls c).any (fun k => !k.pc.over) || s.tasks.any fun x => x.weak_cond = c && x.pc.holds

/-- The calls, after `out` was given to the scheduler by `cancelAll` in `close`. -/
def wake (out : List (Unit × Task (Lambda χ) (Waiter χ))) (calls : Nat → Option Call) (c : Nat) :
    Option Call :=
  (calls c).map fun k => if out.any (fun t => t.2.isCall c) then { k with woken := true } else k

/-- The write of a field of the context of `fd`, if it has one. -/
def writeCtx (s : System χ) (fd : Nat) (f : FdCtx → FdCtx) : System χ :=
  match s.fds.mgr.slot fd with
  | none => s
  | some p => { s with fds.mgr.ctxs := s.fds.mgr.ctxs.modify p f }

/-! ## Steps -/

/-- The call, after the system call has come to `outcome`; `other` tells whether `fd` is a file that
it was not when the call began. -/
def answer (k : Call) (outcome : Outcome) (other : Bool) : Call :=
  let k := { k with strayed := k.strayed || k.woken && other }
  match outcome with
  | .done n => { k with pc := .returned n }
  | .failed => { k with pc := .returned (-1) }
  | .interrupted => k
  | .again => { k with pc := if k.timeout ≠ -1 then .arming else .registering none }

/-- The callback that `do_io` makes for the timer. -/
def callback (c : Nat) (k : Call) : Callback (Lambda χ) Nat :=
  .onTimer c (some (.timeout c k.fd k.event))

/-- `iom->addEvent(fd, event)` of a call. -/
def addEvent (c : Nat) (k : Call) : IOManager.Op Unit (Lambda χ) (Waiter χ) :=
  .addEvent k.fd k.event none ⟨some (), .call c (k.registrations + 1), true⟩

/-- The callbacks of `do_io` among those of a pass, `expired` being the timers that they are of. -/
def collect (expired : List Nat) (cbs : List (Option (Callback (Lambda χ) Nat))) : List Expiry :=
  (expired.zip cbs).filterMap fun e => (timeoutOf e.2).map fun f =>
    { timer := e.1, weak_cond := f.1, winfo := f.2.1, fd := f.2.2.1, event := f.2.2.2 }

/-- `timer->cancel()`, if there is a timer. -/
def cancelTimer (s : System χ) (c : Nat) (timer : Option Nat) : Option (Timers χ) :=
  match timer with
  | none => some s.timers
  | some t => s.timers.next (.cancel (.call c) t)

def next (s : System χ) : Label χ → Option (System χ)
  | .tick now => some { s with timers.clock := now }
  | .timer l =>
    if s.foreignTimer l then (s.timers.next l).map fun timers => { s with timers } else none
  | .pass i now_timer =>
    match s.timers.pc (.worker i) with
    | .expiring now_ms =>
      match s.timers.mgr.expirePass now_ms now_timer with
      | .ok (m, expired, cbs) =>
        some { s with
          timers := s.timers.goto m (.worker i) .idle
          tasks := s.tasks ++ collect expired cbs
          expired := s.expired ++ expired.map fun t => (t, now_ms) }
      | .error _ => none
    | _ => none
  | .event l =>
    if foreignEvent l then (s.events.next l).map fun events => { s with events } else none
  | .setTimeout fd type v => some (s.writeCtx fd fun c => c.setTimeout type v)
  | .setUserNonblock fd v => some (s.writeCtx fd fun c => { c with m_userNonblock := v })
  | .socket j fd f =>
    match s.desc j, s.fds.kernel fd with
    | .idle, none =>
      some ({ s with
        fds.kernel := Function.update s.fds.kernel fd (some f)
        opened := Function.update s.opened fd (s.opened fd + 1) }.setDesc j (.adopting fd))
    | _, _ => none
  | .adopt j =>
    match s.desc j with
    | .adopting fd =>
      match s.fds.get fd true with
      | .ok (fds, _) => some ({ s with fds }.setDesc j .idle)
      | .error _ => none
    | _ => none
  | .close j fd iom =>
    match s.desc j, s.fds.get fd false with
    | .idle, .ok (fds, ctx) =>
      some ({ s with fds }.setDesc j
        (if ctx.isNone then .closing fd else if iom then .cancelling fd else .deleting fd))
    | _, _ => none
  | .cancelAllFind j =>
    match s.desc j with
    | .cancelling fd =>
      (s.events.next (.find (.desc j) (.cancelAll fd))).map fun events =>
        { s with events }.setDesc j
          (if (s.events.mgr.lookup fd).isSome then .holding fd else .deleting fd)
    | _ => none
  | .cancelAllLock j rt =>
    match s.desc j with
    | .holding fd =>
      (s.events.next (.lock (.desc j) rt)).map fun events =>
        let out := events.mgr.scheduled.drop s.events.mgr.scheduled.length
        { s with events, calls := wake out s.calls }.setDesc j (.deleting fd)
    | _ => none
  | .del j =>
    match s.desc j with
    | .deleting fd =>
      match s.fds.mgr.del fd with
      | .ok mgr => some ({ s with fds.mgr := mgr }.setDesc j (.closing fd))
      | .error _ => none
    | _ => none
  | .close_f j =>
    match s.desc j with
    | .closing fd => some ({ s with fds.kernel := (s.fds.kernel.close fd).1 }.setDesc j .idle)
    | _ => none
  | .begin c fd event hook_enable timeout_so =>
    match s.calls c, s.fds.get fd false with
    | none, .ok (fds, ctx) =>
      match Entry.of hook_enable timeout_so (fds.deref ctx) with
      | .managed timeout =>
        some (s.setCall c { fd, event, timeout, began := s.timers.clock, file := s.opened fd })
      | _ => none
    | _, _ => none
  | .syscall c outcome =>
    (s.calls c).bind fun k =>
      if k.pc = .trying ∧ (s.fds.kernel k.fd = none → outcome = .failed) then
        some (s.setCall c (answer k outcome
          ((s.fds.kernel k.fd).isSome && s.opened k.fd != k.file)))
      else none
  | .construct c t =>
    (s.calls c).bind fun k =>
      if k.pc = .arming then
        (s.timers.next (.construct (.call c) t k.timeout (some (callback c k)) false)).map
          fun timers => { s with timers }.setCall c { k with pc := .inserting }
      else none
  | .insert c =>
    (s.calls c).bind fun k =>
      match k.pc, s.timers.pc (.call c) with
      | .inserting, .constructed t _ _ _ now =>
        (s.timers.next (.insert (.call c))).map fun timers =>
          { s with timers, armed := Function.update s.armed t (some (c, now)) }.setCall c
            { k with pc := .registering (some t) }
      | _, _ => none
  | .announce c => (s.timers.next (.announce (.call c))).map fun timers => { s with timers }
  | .addEventFind c =>
    (s.calls c).bind fun k =>
      match k.pc, s.timers.pc (.call c) with
      | .registering _, .idle =>
        (s.events.next (.find (.call c) (addEvent c k))).map fun events => { s with events }
      | _, _ => none
  | .addEventGrow c => (s.events.next (.grow (.call c))).map fun events => { s with events }
  | .addEventLock c rt =>
    (s.calls c).bind fun k =>
      match k.pc with
      | .registering timer =>
        (s.events.next (.lock (.call c) rt)).map fun events =>
          { s with events }.setCall c
            (if rt then { k with pc := .waiting timer, registrations := k.registrations + 1 }
            else { k with pc := .refused timer })
      | _ => none
  | .resume c =>
    (s.calls c).bind fun k =>
      match k.pc with
      | .waiting timer =>
        if s.events.mgr.scheduled.any (fun t => t.2.isCallAt c k.registrations) then
          some (s.setCall c { k with pc := .resumed timer })
        else none
      | _ => none
  | .cancel c =>
    (s.calls c).bind fun k =>
      match k.pc with
      | .resumed timer =>
        (s.cancelTimer c timer).map fun timers =>
          { s with timers }.setCall c { k with pc := .checking }
      | .refused timer =>
        (s.cancelTimer c timer).map fun timers =>
          { s with timers }.setCall c { k with pc := .returned (-1) }
      | _ => none
  | .check c =>
    (s.calls c).bind fun k =>
      if k.pc = .checking then
        some (s.setCall c { k with pc := if k.cancelled.isSome then .timedOut else .trying })
      else none
  | .lockCond i =>
    s.tasks[i]?.bind fun x =>
      if x.pc = .queued then
        some (s.setTask i { x with pc := if s.alive x.weak_cond then .locked else .ended })
      else none
  | .test i =>
    s.tasks[i]?.bind fun x =>
      if x.pc = .locked then
        some (s.setTask i { x with pc :=
          if !(s.alive x.winfo) || (s.calls x.winfo).any (fun k => k.cancelled.isSome) then .ended
          else .flagging })
      else none
  | .flag i =>
    s.tasks[i]?.bind fun x =>
      match x.pc, s.calls x.winfo with
      | .flagging, some k =>
        some ((s.setCall x.winfo { k with cancelled := some x.timer }).setTask i
          { x with pc := .cancelling })
      | _, _ => none
  | .cancelEventFind i =>
    s.tasks[i]?.bind fun x =>
      if x.pc = .cancelling then
        (s.events.next (.find (.task i) (.cancelEvent x.fd x.event))).map fun events =>
          { s with events }.setTask i
            { x with pc := if (s.events.mgr.lookup x.fd).isSome then .holding else .ended }
      else none
  | .cancelEventLock i rt =>
    s.tasks[i]?.bind fun x =>
      if x.pc = .holding then
        (s.events.next (.lock (.task i) rt)).map fun events =>
          { s with events }.setTask i { x with pc := .ended }
      else none

/-- The process at the time `now`, with the files of `kernel` open. -/
def init (now : UInt64) (kernel : Kernel) : System χ where
  timers := .init now
  events := .init
  fds := ⟨kernel, .new⟩
  calls _ := none
  tasks := []
  desc _ := .idle
  opened _ := 0
  armed _ := none
  expired := []

/-- A step between two states. -/
def Step (s : System χ) (l : Label χ) (s' : System χ) : Prop := s.next l = some s'

end System

end Captain
