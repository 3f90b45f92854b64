import Captain.Fiber
import Captain.Scheduler.Queue
import Captain.Transition
import Mathlib.Logic.Function.Basic

/-!
# The workers of `Scheduler::run`

`Pool` is a scheduler whose workers each go round the loop of `run`: scan the queue under the mutex,
choose what to do with the entry found, swap its fiber in, and account for the state in which the
fiber came back. A step is one access to what the workers share; the tests of a fiber's state that
follow one another are one step. The code of the fibers is free: it yields, ends, makes fibers and
schedules as it likes; so is the code of other threads.

A callback runs on the worker's `cb_fiber`, which is kept when the callback has ended.
-/

namespace Captain.Scheduler

variable {φ ι : Type}

/-- Where a worker stands with the fiber of its entry. -/
inductive Stage
  | entering
  | executing
  | leaving
  | returned
  | deciding
  | requeueing
  | settling
  deriving DecidableEq, Repr

/-- Where a worker stands in `run`; `ft` is the entry it took. -/
inductive Pc (φ ι : Type)
  | scanning
  | idle
  | holding (ft : FiberAndThread φ Nat ι)
  | on (ft : FiberAndThread φ Nat ι) (fiber : Nat) (stage : Stage)
  deriving DecidableEq

structure Pool (φ ι : Type) where
  m_fibers : List (FiberAndThread φ Nat ι)
  m_activeThreadCount : Int
  heap : Nat → Option (Fiber φ)
  pc : ι → Pc φ ι
  cb_fiber : ι → Option Nat

inductive Move (φ ι : Type)
  | make (fiber : Nat) (cb : φ)
  | schedule (ft : FiberAndThread φ Nat ι)
  | scan (i : ι)
  | choose (i : ι) (fiber : Nat)
  | swapIn (i : ι)
  | yield (i : ι) (ready : Bool)
  | finish (i : ι) (thrown : Bool)
  | swapOut (i : ι)
  | decrement (i : ι)
  | decide (i : ι)
  | requeue (i : ι)
  | settle (i : ι)
  | wake (i : ι)

namespace Pool

def init : Pool φ ι where
  m_fibers := []
  m_activeThreadCount := 0
  heap := fun _ => none
  pc := fun _ => .scanning
  cb_fiber := fun _ => none

/-- The fiber's state is `EXEC`. -/
def exec (s : Pool φ ι) (fiber : Nat) : Bool := (s.heap fiber).any fun f => f.m_state = .EXEC

variable [DecidableEq ι]

def goto (s : Pool φ ι) (i : ι) (pc : Pc φ ι) : Pool φ ι :=
  { s with pc := Function.update s.pc i pc }

def setFiber (s : Pool φ ι) (fiber : Nat) (f : Fiber φ) : Pool φ ι :=
  { s with heap := Function.update s.heap fiber (some f) }

def setCbFiber (s : Pool φ ι) (i : ι) (fiber : Option Nat) : Pool φ ι :=
  { s with cb_fiber := Function.update s.cb_fiber i fiber }

def push (s : Pool φ ι) (ft : FiberAndThread φ Nat ι) : Pool φ ι :=
  { s with m_fibers := s.m_fibers ++ [ft] }

def countActive (s : Pool φ ι) (n : Int) : Pool φ ι :=
  { s with m_activeThreadCount := s.m_activeThreadCount + n }

/-- The scan of worker `i`. -/
def scan (s : Pool φ ι) (i : ι) : Scan φ Nat ι := Scheduler.scan s.exec i s.m_fibers

/-- The end of the branch of a fiber or of a callback: `cb_fiber` is dropped unless its callback
has ended. -/
def dropCbFiber (s : Pool φ ι) (i : ι) (task : Task φ Nat) : Pool φ ι :=
  match task with
  | .cb _ => s.setCbFiber i none
  | .fiber _ => s

theorem dropCbFiber_frame (s : Pool φ ι) (i : ι) (task : Task φ Nat) :
    (s.dropCbFiber i task).heap = s.heap ∧ (s.dropCbFiber i task).pc = s.pc ∧
      (s.dropCbFiber i task).m_fibers = s.m_fibers ∧
      (s.dropCbFiber i task).m_activeThreadCount = s.m_activeThreadCount := by
  cases task <;> exact ⟨rfl, rfl, rfl, rfl⟩

inductive Step : Pool φ ι → Move φ ι → Pool φ ι → Prop
  | make {s : Pool φ ι} {fiber : Nat} (hnew : s.heap fiber = none) (cb : φ) :
      Step s (.make fiber cb) (s.setFiber fiber (.make cb))
  | schedule (s : Pool φ ι) (ft : FiberAndThread φ Nat ι) :
      Step s (.schedule ft) (s.push ft)
  | take {s : Pool φ ι} {i : ι} (hpc : s.pc i = .scanning) {ft : FiberAndThread φ Nat ι}
      (hft : (s.scan i).ft = some ft) :
      Step s (.scan i)
        (({ s with m_fibers := (s.scan i).m_fibers }.countActive 1).goto i (.holding ft))
  | pass {s : Pool φ ι} {i : ι} (hpc : s.pc i = .scanning) (hft : (s.scan i).ft = none) :
      Step s (.scan i) (s.goto i .idle)
  -- `if(ft.fiber && ...)`
  | chooseFiber {s : Pool φ ι} {i : ι} {ft : FiberAndThread φ Nat ι} (hpc : s.pc i = .holding ft)
      {fiber : Nat} (htask : ft.task = .fiber fiber) {f : Fiber φ} (hf : s.heap fiber = some f)
      (hstate : f.m_state.ended = false) :
      Step s (.choose i fiber) (s.goto i (.on ft fiber .entering))
  | discard {s : Pool φ ι} {i : ι} {ft : FiberAndThread φ Nat ι} (hpc : s.pc i = .holding ft)
      {fiber : Nat} (htask : ft.task = .fiber fiber) {f : Fiber φ} (hf : s.heap fiber = some f)
      (hstate : f.m_state.ended = true) :
      Step s (.choose i fiber) ((s.countActive (-1)).goto i .scanning)
  -- `else if(ft.cb)`
  | reuse {s : Pool φ ι} {i : ι} {ft : FiberAndThread φ Nat ι} (hpc : s.pc i = .holding ft)
      {cb : φ} (htask : ft.task = .cb cb) {fiber : Nat} (hcb : s.cb_fiber i = some fiber)
      {f f' : Fiber φ} (hf : s.heap fiber = some f) (hreset : f.reset (some cb) = some f') :
      Step s (.choose i fiber) ((s.setFiber fiber f').goto i (.on ft fiber .entering))
  | fresh {s : Pool φ ι} {i : ι} {ft : FiberAndThread φ Nat ι} (hpc : s.pc i = .holding ft)
      {cb : φ} (htask : ft.task = .cb cb) (hcb : s.cb_fiber i = none) {fiber : Nat}
      (hnew : s.heap fiber = none) :
      Step s (.choose i fiber) (((s.setFiber fiber (.make cb)).setCbFiber i (some fiber)).goto i
        (.on ft fiber .entering))
  | swapIn {s : Pool φ ι} {i : ι} {ft : FiberAndThread φ Nat ι} {fiber : Nat}
      (hpc : s.pc i = .on ft fiber .entering) {f f' : Fiber φ} (hf : s.heap fiber = some f)
      (hswap : f.swapIn = some f') :
      Step s (.swapIn i) ((s.setFiber fiber f').goto i (.on ft fiber .executing))
  | yield {s : Pool φ ι} {i : ι} {ft : FiberAndThread φ Nat ι} {fiber : Nat}
      (hpc : s.pc i = .on ft fiber .executing) {f : Fiber φ} (hf : s.heap fiber = some f)
      (ready : Bool) :
      Step s (.yield i ready) ((s.setFiber fiber (f.yield ready)).goto i (.on ft fiber .leaving))
  | finish {s : Pool φ ι} {i : ι} {ft : FiberAndThread φ Nat ι} {fiber : Nat}
      (hpc : s.pc i = .on ft fiber .executing) {f : Fiber φ} (hf : s.heap fiber = some f)
      (thrown : Bool) :
      Step s (.finish i thrown)
        ((s.setFiber fiber (f.finish thrown)).goto i (.on ft fiber .leaving))
  | swapOut {s : Pool φ ι} {i : ι} {ft : FiberAndThread φ Nat ι} {fiber : Nat}
      (hpc : s.pc i = .on ft fiber .leaving) {f : Fiber φ} (hf : s.heap fiber = some f) :
      Step s (.swapOut i) ((s.setFiber fiber f.swapOut).goto i (.on ft fiber .returned))
  | decrement {s : Pool φ ι} {i : ι} {ft : FiberAndThread φ Nat ι} {fiber : Nat}
      (hpc : s.pc i = .on ft fiber .returned) :
      Step s (.decrement i) ((s.countActive (-1)).goto i (.on ft fiber .deciding))
  | ready {s : Pool φ ι} {i : ι} {ft : FiberAndThread φ Nat ι} {fiber : Nat}
      (hpc : s.pc i = .on ft fiber .deciding) {f : Fiber φ} (hf : s.heap fiber = some f)
      (hstate : f.m_state = .READY) :
      Step s (.decide i) (s.goto i (.on ft fiber .requeueing))
  | endFiber {s : Pool φ ι} {i : ι} {ft : FiberAndThread φ Nat ι} {fiber : Nat}
      (hpc : s.pc i = .on ft fiber .deciding) {f : Fiber φ} (hf : s.heap fiber = some f)
      (hstate : f.m_state.ended = true) (htask : ft.task = .fiber fiber) :
      Step s (.decide i) (s.goto i .scanning)
  | endCb {s : Pool φ ι} {i : ι} {ft : FiberAndThread φ Nat ι} {fiber : Nat}
      (hpc : s.pc i = .on ft fiber .deciding) {f f' : Fiber φ} (hf : s.heap fiber = some f)
      (hstate : f.m_state.ended = true) {cb : φ} (htask : ft.task = .cb cb)
      (hreset : f.reset none = some f') :
      Step s (.decide i) ((s.setFiber fiber f').goto i .scanning)
  | hold {s : Pool φ ι} {i : ι} {ft : FiberAndThread φ Nat ι} {fiber : Nat}
      (hpc : s.pc i = .on ft fiber .deciding) {f : Fiber φ} (hf : s.heap fiber = some f)
      (hready : f.m_state ≠ .READY) (hstate : f.m_state.ended = false) :
      Step s (.decide i) (s.goto i (.on ft fiber .settling))
  | requeue {s : Pool φ ι} {i : ι} {ft : FiberAndThread φ Nat ι} {fiber : Nat}
      (hpc : s.pc i = .on ft fiber .requeueing) :
      Step s (.requeue i)
        (((s.push ⟨.fiber fiber, none⟩).dropCbFiber i ft.task).goto i .scanning)
  | settle {s : Pool φ ι} {i : ι} {ft : FiberAndThread φ Nat ι} {fiber : Nat}
      (hpc : s.pc i = .on ft fiber .settling) {f : Fiber φ} (hf : s.heap fiber = some f) :
      Step s (.settle i)
        (((s.setFiber fiber { f with m_state := .HOLD }).dropCbFiber i ft.task).goto i .scanning)
  | wake {s : Pool φ ι} {i : ι} (hpc : s.pc i = .idle) : Step s (.wake i) (s.goto i .scanning)

end Pool

end Captain.Scheduler
