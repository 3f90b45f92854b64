import Captain.Scheduler.Queue
import Captain.Timer.Deadlines
import Captain.Transition
import Mathlib.Logic.Function.Basic

/-!
# Wake-ups of the workers of an `IOManager`

A worker scans the queue, runs the task it found, or goes idle: it is counted in
`m_idleThreadCount`, asks `getNextTimer` how long it may sleep, and waits for `epoll`. Other threads
and running tasks schedule tasks and set timers. `tickle` is two steps, the test of the idle
count and the write to the pipe; a worker that `epoll_wait` woke may find the pipe and drain it.

The waiting worker remembers the earliest deadline at its poll. `refresh` and the expiry pass are
made as far as they bring no earlier deadline.

* `never_lost`: if every `tickle` that writes nothing is made while a worker is still to look, or
  the pipe holds a byte, then there is no state in which all workers wait, nothing is about to wake
  one, and there is a task to run or a timer due before the workers know.
-/

namespace Captain.IOManager

open Transition Scheduler TimerManager

variable {φ ψ ω ι : Type}

/-- Where a thread stands in `Scheduler::run`; threads that are not workers stay outside. -/
inductive Place (ψ : Type)
  | outside
  | scanning
  | running (fiber : ψ)
  | passed
  | entering
  | waiting (deadline : Option UInt64)
  | woken
  deriving DecidableEq

namespace Place

/-- The thread runs code that may schedule tasks and set timers. -/
def acts : Place ψ → Bool
  | .outside | .running _ | .woken => true
  | _ => false

/-- The worker will scan the queue before it waits. -/
def scansAhead : Place ψ → Bool
  | .scanning | .running _ | .woken => true
  | _ => false

/-- The worker will call `getNextTimer` before it waits. -/
def pollsAhead : Place ψ → Bool
  | .outside | .waiting _ => false
  | _ => true

end Place

/-- What `tickle` is called for. -/
inductive Cause
  | queue
  | timer
  deriving DecidableEq

/-- Where a thread stands in a call of `tickle`. -/
inductive Tickle
  | none
  | testing (cause : Cause)
  | writing
  deriving DecidableEq

structure Workers (φ ψ ω ι : Type) where
  m_fibers : List (FiberAndThread φ ψ ι)
  exec : ψ → Bool
  timers : TimerManager φ ω
  m_idleThreadCount : Nat
  pipe : Nat
  place : ι → Place ψ
  tickle : ι → Tickle

inductive Wake (φ ψ ω ι : Type)
  | schedule (i : ι) (fts : List (FiberAndThread φ ψ ι))
  | addTimer (i : ι) (t : Nat) (ms : UInt64) (cb : Option (Callback φ ω)) (recurring : Bool)
      (now : UInt64)
  | reset (i : ι) (t : Nat) (ms : UInt64) (from_now : Bool) (now : UInt64)
  | cancel (i : ι) (t : Nat)
  | refresh (i : ι) (t : Nat) (now : UInt64)
  | expire (i : ι) (now_ms : UInt64) (now_timer : Nat)
  | test (i : ι)
  | write (i : ι)
  | scan (i : ι) (fiber : ψ)
  | setState (i : ι) (exec : Bool)
  | complete (i : ι)
  | enter (i : ι)
  | poll (i : ι) (now : UInt64)
  | wake (i : ι)
  | drain (i : ι)
  | leave (i : ι)

namespace Workers

/-- The workers have just started. -/
def init (worker : ι → Bool) (now : UInt64) : Workers φ ψ ω ι where
  m_fibers := []
  exec := fun _ => false
  timers := TimerManager.new now
  m_idleThreadCount := 0
  pipe := 0
  place := fun i => if worker i then .scanning else .outside
  tickle := fun _ => .none

/-- The fiber that runs a task; a callback runs on a fiber of the worker. -/
def runner (task : Task φ ψ) (fiber : ψ) : ψ :=
  match task with
  | .cb _ => fiber
  | .fiber f => f

/-- After a scan. -/
def scanned (ft : Option (FiberAndThread φ ψ ι)) (fiber : ψ) : Place ψ :=
  match ft with
  | some ft => .running (runner ft.task fiber)
  | none => .passed

/-- `tickle` is called if the condition holds. -/
def tickleIf (b : Bool) (cause : Cause) : Tickle := if b then .testing cause else .none

inductive Step [DecidableEq ψ] [DecidableEq ι] :
    Workers φ ψ ω ι → Wake φ ψ ω ι → Workers φ ψ ω ι → Prop
  | schedule {s : Workers φ ψ ω ι} {i : ι} (ht : s.tickle i = .none)
      (hp : (s.place i).acts = true) (fts : List (FiberAndThread φ ψ ι)) :
      Step s (.schedule i fts) { s with
        m_fibers := s.m_fibers ++ fts
        tickle := Function.update s.tickle i (tickleIf s.m_fibers.isEmpty .queue) }
  | addTimer {s : Workers φ ψ ω ι} {i : ι} (ht : s.tickle i = .none)
      (hp : (s.place i).acts = true) {t : Nat} (hnew : s.timers.heap t = none) {ms now : UInt64}
      {cb : Option (Callback φ ω)} {recurring at_front : Bool} {m : TimerManager φ ω}
      (hrun : s.timers.addTimer t ms cb recurring now = (m, at_front)) :
      Step s (.addTimer i t ms cb recurring now) { s with
        timers := m
        tickle := Function.update s.tickle i (tickleIf at_front .timer) }
  | reset {s : Workers φ ψ ω ι} {i : ι} (ht : s.tickle i = .none)
      (hp : (s.place i).acts = true) {t : Nat} {ms now : UInt64} {from_now b at_front : Bool}
      {m : TimerManager φ ω} (hrun : s.timers.reset t ms from_now now = .ok (m, b, at_front)) :
      Step s (.reset i t ms from_now now) { s with
        timers := m
        tickle := Function.update s.tickle i (tickleIf at_front .timer) }
  | cancel {s : Workers φ ψ ω ι} {i : ι} (ht : s.tickle i = .none)
      (hp : (s.place i).acts = true) {t : Nat} {b : Bool} {m : TimerManager φ ω}
      (hrun : s.timers.cancel t = .ok (m, b)) : Step s (.cancel i t) { s with timers := m }
  | refresh {s : Workers φ ψ ω ι} {i : ι} (ht : s.tickle i = .none)
      (hp : (s.place i).acts = true) {t : Nat} {now : UInt64} {b : Bool} {m : TimerManager φ ω}
      (hrun : s.timers.refresh t now = .ok (m, b)) (hlater : Later m s.timers) :
      Step s (.refresh i t now) { s with timers := m }
  | expire {s : Workers φ ψ ω ι} {i : ι} (ht : s.tickle i = .none) (hp : s.place i = .woken)
      {now_ms : UInt64} {now_timer : Nat} {m : TimerManager φ ω} {expired : List Nat}
      {cbs : List (Option (Callback φ ω))}
      (hrun : s.timers.expirePass now_ms now_timer = .ok (m, expired, cbs))
      (hlater : Later m s.timers) : Step s (.expire i now_ms now_timer) { s with timers := m }
  | test {s : Workers φ ψ ω ι} {i : ι} {cause : Cause} (ht : s.tickle i = .testing cause) :
      Step s (.test i) { s with
        -- `if(hasIdleThreads()) return;`
        tickle := Function.update s.tickle i
          (if s.m_idleThreadCount > 0 then .none else .writing) }
  | write {s : Workers φ ψ ω ι} {i : ι} (ht : s.tickle i = .writing) :
      Step s (.write i) { s with
        pipe := s.pipe + 1
        tickle := Function.update s.tickle i .none }
  | scan {s : Workers φ ψ ω ι} {i : ι} (ht : s.tickle i = .none) (hp : s.place i = .scanning)
      (fiber : ψ) : Step s (.scan i fiber) { s with
        m_fibers := (scan s.exec i s.m_fibers).m_fibers
        place := Function.update s.place i (scanned (scan s.exec i s.m_fibers).ft fiber)
        tickle := Function.update s.tickle i
          (tickleIf (scan s.exec i s.m_fibers).tickle_me .queue) }
  | setState {s : Workers φ ψ ω ι} {i : ι} {fiber : ψ} (hp : s.place i = .running fiber)
      (exec : Bool) : Step s (.setState i exec) { s with
        exec := Function.update s.exec fiber exec }
  | complete {s : Workers φ ψ ω ι} {i : ι} (ht : s.tickle i = .none) {fiber : ψ}
      (hp : s.place i = .running fiber) : Step s (.complete i) { s with
        exec := Function.update s.exec fiber false
        place := Function.update s.place i .scanning }
  | enter {s : Workers φ ψ ω ι} {i : ι} (ht : s.tickle i = .none) (hp : s.place i = .passed) :
      Step s (.enter i) { s with
        m_idleThreadCount := s.m_idleThreadCount + 1
        place := Function.update s.place i .entering }
  | poll {s : Workers φ ψ ω ι} {i : ι} (hp : s.place i = .entering) (now : UInt64) :
      Step s (.poll i now) { s with
        timers := (s.timers.getNextTimer now).1
        place := Function.update s.place i (.waiting s.timers.deadline) }
  | wake {s : Workers φ ψ ω ι} {i : ι} {deadline : Option UInt64}
      (hp : s.place i = .waiting deadline) :
      Step s (.wake i) { s with place := Function.update s.place i .woken }
  | drain {s : Workers φ ψ ω ι} {i : ι} (hp : s.place i = .woken) :
      Step s (.drain i) { s with pipe := 0 }
  | leave {s : Workers φ ψ ω ι} {i : ι} (ht : s.tickle i = .none) (hp : s.place i = .woken) :
      Step s (.leave i) { s with
        m_idleThreadCount := s.m_idleThreadCount - 1
        place := Function.update s.place i .scanning }

/-- A wake-up is lost: all workers wait, no `tickle` is under way and the pipe is empty, but there
is a task for any thread, or a timer is due before all deadlines that the workers know. -/
structure Lost (s : Workers φ ψ ω ι) : Prop where
  asleep : ∀ i, s.place i = .outside ∨ ∃ deadline, s.place i = .waiting deadline
  quiet : ∀ i, s.tickle i = .none
  empty : s.pipe = 0
  work : (∃ ft ∈ s.m_fibers, ft.thread = none) ∨
    ∀ i deadline, s.place i = .waiting deadline → s.timers.DueBefore deadline

/-- A `tickle` that finds an idle worker is heard nevertheless: the pipe holds a byte, or a worker
is still to look at what it is called for, or there is nothing to look at any more. -/
def Heard (s : Workers φ ψ ω ι) : Wake φ ψ ω ι → Prop
  | .test i => s.m_idleThreadCount > 0 → 0 < s.pipe ∨
    (s.tickle i = .testing .queue → s.m_fibers = [] ∨ ∃ w, (s.place w).scansAhead = true) ∧
    (s.tickle i = .testing .timer →
      s.timers.m_tickled = false ∨ ∃ w, (s.place w).pollsAhead = true)
  | _ => True

/-! ## The invariant -/

/-- A `tickle` that is called for `cause`, or that is to write, is under way, or the pipe holds a
byte. -/
def Waking (tickle : ι → Tickle) (pipe : Nat) (cause : Cause) : Prop :=
  (∃ i, tickle i = .testing cause ∨ tickle i = .writing) ∨ 0 < pipe

/-- While there is a task, a worker is still to scan the queue, or a wake-up is on its way. While
`m_tickled` is set, a worker is still to poll, or a wake-up is on its way; while it is not, a
worker knows the earliest deadline or is still to poll. -/
structure Inv (s : Workers φ ψ ω ι) : Prop where
  timers : TimerManager.Inv s.timers
  exec : ∀ fiber, s.exec fiber = true → ∃ w, s.place w = .running fiber
  queue : s.m_fibers ≠ [] →
    (∃ w, (s.place w).scansAhead = true) ∨ Waking s.tickle s.pipe .queue
  tickled : s.timers.m_tickled = true →
    (∃ w, (s.place w).pollsAhead = true) ∨ Waking s.tickle s.pipe .timer
  polled : s.timers.m_tickled = false → (∃ w, (s.place w).pollsAhead = true) ∨
    ∃ w deadline, s.place w = .waiting deadline ∧ ¬s.timers.DueBefore deadline

/-- The invariant excludes the states in which a wake-up is lost. -/
theorem Inv.not_lost {s : Workers φ ψ ω ι} (h : Inv s) : ¬Lost s := by
  intro hlost
  have hscan : ¬∃ w, (s.place w).scansAhead = true := by
    rintro ⟨w, hw⟩
    rcases hlost.asleep w with hp | ⟨deadline, hp⟩ <;> rw [hp] at hw <;> cases hw
  have hpoll : ¬∃ w, (s.place w).pollsAhead = true := by
    rintro ⟨w, hw⟩
    rcases hlost.asleep w with hp | ⟨deadline, hp⟩ <;> rw [hp] at hw <;> cases hw
  have hquiet : ∀ cause, ¬Waking s.tickle s.pipe cause := by
    rintro cause (⟨i, hi⟩ | hpipe)
    · rw [hlost.quiet i] at hi
      rcases hi with hi | hi <;> cases hi
    · rw [hlost.empty] at hpipe
      exact Nat.lt_irrefl 0 hpipe
  rcases hlost.work with ⟨ft, hft, -⟩ | hdue
  · exact (h.queue (List.ne_nil_of_mem hft)).elim hscan (hquiet _)
  · cases htick : s.timers.m_tickled with
    | true => exact (h.tickled htick).elim hpoll (hquiet _)
    | false =>
      rcases h.polled htick with hw | ⟨w, deadline, hp, hnot⟩
      · exact hpoll hw
      · exact hnot (hdue w deadline hp)

variable [DecidableEq ι]

/-- A worker moves, and what is true of some worker stays true of some worker. -/
theorem exists_update {P : Place ψ → Prop} {place : ι → Place ψ} {i : ι} {p : Place ψ}
    (h : ∃ w, P (place w)) (hp : P (place i) → P p) : ∃ w, P (Function.update place i p w) := by
  obtain ⟨w, hw⟩ := h
  refine ⟨w, ?_⟩
  by_cases hwi : w = i
  · subst hwi
    rw [Function.update_self]
    exact hp hw
  · rwa [Function.update_of_ne hwi]

theorem exists_update_self {P : Place ψ → Prop} (place : ι → Place ψ) (i : ι) {p : Place ψ}
    (hp : P p) : ∃ w, P (Function.update place i p w) := ⟨i, by rwa [Function.update_self]⟩

theorem waking_update {tickle : ι → Tickle} {pipe : Nat} {cause : Cause}
    (h : Waking tickle pipe cause) {i : ι} (htest : tickle i ≠ .testing cause)
    (hwrite : tickle i ≠ .writing) (p : Tickle) :
    Waking (Function.update tickle i p) pipe cause := by
  apply h.imp_left
  rintro ⟨j, hj⟩
  have hji : j ≠ i := by
    rintro rfl
    exact hj.elim htest hwrite
  exact ⟨j, by rwa [Function.update_of_ne hji]⟩

theorem waking_of_none {tickle : ι → Tickle} {pipe : Nat} {cause : Cause}
    (h : Waking tickle pipe cause) {i : ι} (ht : tickle i = .none) (p : Tickle) :
    Waking (Function.update tickle i p) pipe cause :=
  waking_update h (by simp [ht]) (by simp [ht]) p

theorem waking_self (tickle : ι → Tickle) (pipe : Nat) {cause : Cause} (i : ι) {p : Tickle}
    (hp : p = .testing cause ∨ p = .writing) : Waking (Function.update tickle i p) pipe cause :=
  .inl ⟨i, by rwa [Function.update_self]⟩

section

variable {s : Workers φ ψ ω ι} (h : Inv s)
include h

/-- An operation on the timers that announces what it brings to the front, if nothing is announced
yet. -/
theorem Inv.setTimers {i : ι} (ht : s.tickle i = .none) {m : TimerManager φ ω}
    (hinv : TimerManager.Inv m) (at_front : Bool)
    (htick : m.m_tickled = (s.timers.m_tickled || at_front))
    (hlater : s.timers.m_tickled = false → at_front = false → Later m s.timers) :
    Inv { s with
      timers := m
      tickle := Function.update s.tickle i (tickleIf at_front .timer) } where
  timers := hinv
  exec := h.exec
  queue hne := (h.queue hne).imp_right fun hw => waking_of_none hw ht _
  tickled htrue := by
    cases at_front with
    | true => exact .inr (waking_self _ _ i (.inl rfl))
    | false =>
      rw [Bool.or_false] at htick
      exact (h.tickled (htick ▸ htrue)).imp_right fun hw => waking_of_none hw ht _
  polled hfalse := by
    change m.m_tickled = false at hfalse
    rw [htick, Bool.or_eq_false_iff] at hfalse
    apply (h.polled hfalse.1).imp_right
    rintro ⟨w, deadline, hp, hnot⟩
    exact ⟨w, deadline, hp, (hlater hfalse.1 hfalse.2).not_dueBefore hnot⟩

theorem Inv.delay {i : ι} (ht : s.tickle i = .none) {m : TimerManager φ ω}
    (hinv : TimerManager.Inv m) (htick : m.m_tickled = s.timers.m_tickled)
    (hlater : Later m s.timers) : Inv { s with timers := m } := by
  have hset := h.setTimers ht hinv false (htick.trans (Bool.or_false _).symm)
    fun _ _ => hlater
  have hsame : Function.update s.tickle i (tickleIf false .timer) = s.tickle := by
    rw [tickleIf, if_neg Bool.false_ne_true, ← ht, Function.update_eq_self]
  rwa [hsame] at hset

/-- A worker that does not run a task goes to a place before its next poll. -/
theorem Inv.move {i : ι} {p : Place ψ} (hpoll : p.pollsAhead = true)
    (hscan : (s.place i).scansAhead = true → p.scansAhead = true)
    (hrun : ∀ fiber, s.place i ≠ .running fiber) (count : Nat) :
    Inv { s with m_idleThreadCount := count, place := Function.update s.place i p } where
  timers := h.timers
  exec fiber hf := exists_update (P := fun q => q = .running fiber) (h.exec fiber hf)
    fun hi => absurd hi (hrun fiber)
  queue hne := (h.queue hne).imp_left fun hw =>
    exists_update (P := fun q => q.scansAhead = true) hw hscan
  tickled _ := .inl (exists_update_self (P := fun q => q.pollsAhead = true) _ i hpoll)
  polled _ := .inl (exists_update_self (P := fun q => q.pollsAhead = true) _ i hpoll)

theorem Inv.schedule {i : ι} (ht : s.tickle i = .none) (fts : List (FiberAndThread φ ψ ι)) :
    Inv { s with
      m_fibers := s.m_fibers ++ fts
      tickle := Function.update s.tickle i (tickleIf s.m_fibers.isEmpty .queue) } where
  timers := h.timers
  exec := h.exec
  queue _ := by
    cases hq : s.m_fibers.isEmpty with
    | true => exact .inr (waking_self _ _ i (.inl rfl))
    | false =>
      have hne : s.m_fibers ≠ [] := fun hnil => by rw [hnil] at hq; cases hq
      exact (h.queue hne).imp_right fun hw => waking_of_none hw ht _
  tickled htrue := (h.tickled htrue).imp_right fun hw => waking_of_none hw ht _
  polled := h.polled

/-- The test of `tickle`: it writes, or it is heard. -/
theorem Inv.test {i : ι} {cause : Cause} (ht : s.tickle i = .testing cause)
    (hheard : Heard s (.test i)) :
    Inv { s with
      tickle := Function.update s.tickle i
        (if s.m_idleThreadCount > 0 then .none else .writing) } := by
  by_cases hidle : s.m_idleThreadCount > 0
  · rw [if_pos hidle]
    have hother : ∀ c, c ≠ cause → Waking s.tickle s.pipe c →
        Waking (Function.update s.tickle i .none) s.pipe c := by
      intro c hc hw
      refine waking_update hw (fun heq => hc ?_) (by simp [ht]) _
      rw [ht] at heq
      exact (Tickle.testing.inj heq).symm
    have hpipe : 0 < s.pipe → ∀ c, Waking (Function.update s.tickle i .none) s.pipe c :=
      fun hlt _ => .inr hlt
    refine ⟨h.timers, h.exec, fun hne => ?_, fun htrue => ?_, h.polled⟩
    · rcases hheard hidle with hlt | ⟨hq, -⟩
      · exact .inr (hpipe hlt _)
      · cases cause with
        | queue => exact .inl ((hq ht).resolve_left hne)
        | timer => exact (h.queue hne).imp_right (hother _ (by simp))
    · rcases hheard hidle with hlt | ⟨-, hm⟩
      · exact .inr (hpipe hlt _)
      · cases cause with
        | queue => exact (h.tickled htrue).imp_right (hother _ (by simp))
        | timer =>
          refine .inl ((hm ht).resolve_left ?_)
          exact fun hfalse => by rw [htrue] at hfalse; cases hfalse
  · rw [if_neg hidle]
    have hw : ∀ c, Waking (Function.update s.tickle i .writing) s.pipe c :=
      fun _ => waking_self _ _ i (.inr rfl)
    exact ⟨h.timers, h.exec, fun _ => .inr (hw _), fun _ => .inr (hw _), h.polled⟩

theorem Inv.scan {i : ι} (hp : s.place i = .scanning) (fiber : ψ) :
    Inv { s with
      m_fibers := (Scheduler.scan s.exec i s.m_fibers).m_fibers
      place := Function.update s.place i (scanned (Scheduler.scan s.exec i s.m_fibers).ft fiber)
      tickle := Function.update s.tickle i
        (tickleIf (Scheduler.scan s.exec i s.m_fibers).tickle_me .queue) } := by
  have hexec : ∀ p f, s.exec f = true → ∃ w, Function.update s.place i p w = .running f :=
    fun p f hf => exists_update (P := fun q => q = .running f) (h.exec f hf)
      fun hi => by rw [hp] at hi; cases hi
  have hpoll : ∀ ft : Option (FiberAndThread φ ψ ι),
      ∃ w, (Function.update s.place i (scanned ft fiber) w).pollsAhead = true := by
    intro ft
    refine exists_update_self (P := fun q => q.pollsAhead = true) _ i ?_
    cases ft <;> rfl
  refine ⟨h.timers, hexec _, fun hne => ?_, fun _ => .inl (hpoll _), fun _ => .inl (hpoll _)⟩
  cases hft : (Scheduler.scan s.exec i s.m_fibers).ft with
  | some ft => exact .inl (exists_update_self (P := fun q => q.scansAhead = true) _ i rfl)
  | none =>
    obtain ⟨hq, htickle | hall⟩ := scan_none hft
    · rw [htickle]
      exact .inr (waking_self _ _ i (.inl rfl))
    · -- every task is a fiber that is executing, so its worker is still to scan
      left
      dsimp only at hne
      rw [hq] at hne
      obtain ⟨ft, hmem⟩ := List.exists_mem_of_ne_nil _ hne
      have hex := hall ft hmem
      cases htask : ft.task with
      | cb cb =>
        rw [htask] at hex
        cases hex
      | fiber f =>
        rw [htask] at hex
        obtain ⟨w, hw⟩ := hexec .passed f hex
        refine ⟨w, ?_⟩
        show (Function.update s.place i .passed w).scansAhead = true
        rw [hw]
        rfl

theorem Inv.complete [DecidableEq ψ] {i : ι} {fiber : ψ} (hp : s.place i = .running fiber) :
    Inv { s with
      exec := Function.update s.exec fiber false
      place := Function.update s.place i .scanning } where
  timers := h.timers
  exec f hf := by
    change Function.update s.exec fiber false f = true at hf
    have hne : f ≠ fiber := by
      rintro rfl
      rw [Function.update_self] at hf
      cases hf
    rw [Function.update_of_ne hne] at hf
    apply exists_update (P := fun q => q = .running f) (h.exec f hf)
    intro hi
    rw [hp] at hi
    exact absurd (Place.running.inj hi).symm hne
  queue _ := .inl (exists_update_self (P := fun q => q.scansAhead = true) _ i rfl)
  tickled _ := .inl (exists_update_self (P := fun q => q.pollsAhead = true) _ i rfl)
  polled _ := .inl (exists_update_self (P := fun q => q.pollsAhead = true) _ i rfl)

omit [DecidableEq ι] in
theorem Inv.setState [DecidableEq ψ] {i : ι} {fiber : ψ} (hp : s.place i = .running fiber)
    (exec : Bool) : Inv { s with exec := Function.update s.exec fiber exec } where
  timers := h.timers
  exec f hf := by
    change Function.update s.exec fiber exec f = true at hf
    by_cases hf' : f = fiber
    · exact ⟨i, by rw [hp, hf']⟩
    · rw [Function.update_of_ne hf'] at hf
      exact h.exec f hf
  queue := h.queue
  tickled := h.tickled
  polled := h.polled

/-- The worker learns the earliest deadline, and waits. -/
theorem Inv.poll {i : ι} (hp : s.place i = .entering) (now : UInt64) :
    Inv { s with
      timers := (s.timers.getNextTimer now).1
      place := Function.update s.place i (.waiting s.timers.deadline) } := by
  obtain ⟨hinv, heq⟩ := inv_getNextTimer h.timers now
  refine ⟨hinv, fun f hf => ?_, fun hne => ?_, fun htrue => ?_, fun _ => ?_⟩
  · exact exists_update (P := fun q => q = .running f) (h.exec f hf)
      fun hi => by rw [hp] at hi; cases hi
  · exact (h.queue hne).imp_left fun hw =>
      exists_update (P := fun q => q.scansAhead = true) hw fun hi => by rw [hp] at hi; cases hi
  · dsimp only at htrue
    rw [heq] at htrue
    cases htrue
  · refine .inr ⟨i, s.timers.deadline, Function.update_self .., ?_⟩
    show ¬(s.timers.getNextTimer now).1.DueBefore s.timers.deadline
    rw [heq]
    exact not_dueBefore_deadline (m := s.timers) h.timers

/-- **Step lemma.** -/
theorem Step.inv [DecidableEq ψ] {s' : Workers φ ψ ω ι} {l : Wake φ ψ ω ι} (hstep : Step s l s')
    (hheard : Heard s l) : Inv s' := by
  cases hstep with
  | schedule ht hp fts => exact h.schedule ht fts
  | addTimer ht hp hnew hrun =>
    obtain ⟨hinv, htick, hlater⟩ := later_addTimer h.timers hnew hrun
    exact h.setTimers ht hinv _ htick hlater
  | reset ht hp hrun =>
    obtain ⟨hinv, htick, hlater⟩ := later_reset h.timers hrun
    exact h.setTimers ht hinv _ htick hlater
  | cancel ht hp hrun =>
    obtain ⟨hinv, htick, hlater⟩ := later_cancel h.timers hrun
    exact h.delay ht hinv htick hlater
  | refresh ht hp hrun hlater =>
    rcases h.timers.of_refresh hrun with rfl | ⟨-, hinv, -, -, htick, -⟩
    · exact h
    · exact h.delay ht hinv htick hlater
  | expire ht hp hrun hlater =>
    have hexp := h.timers.of_expirePass hrun
    exact h.delay ht hexp.inv hexp.tickled hlater
  | test ht => exact h.test ht hheard
  | write ht =>
    have hw : ∀ tickle c, Waking (tickle : ι → Tickle) (s.pipe + 1) c :=
      fun _ _ => .inr (Nat.succ_pos _)
    exact ⟨h.timers, h.exec, fun _ => .inr (hw _ _), fun _ => .inr (hw _ _), h.polled⟩
  | scan ht hp fiber => exact h.scan hp fiber
  | setState hp exec => exact h.setState hp exec
  | complete ht hp => exact h.complete hp
  | enter ht hp => exact h.move rfl (by simp [hp, Place.scansAhead]) (by simp [hp]) _
  | poll hp now => exact h.poll hp now
  | wake hp => exact h.move rfl (fun _ => rfl) (by simp [hp]) _
  | @drain i hp =>
    have hscan : ∃ w, (s.place w).scansAhead = true := ⟨i, by rw [hp]; rfl⟩
    have hpoll : ∃ w, (s.place w).pollsAhead = true := ⟨i, by rw [hp]; rfl⟩
    exact ⟨h.timers, h.exec, fun _ => .inl hscan, fun _ => .inl hpoll, h.polled⟩
  | leave ht hp => exact h.move rfl (fun _ => rfl) (by simp [hp]) _

end

/-! ## Runs -/

omit [DecidableEq ι] in
theorem inv_init {worker : ι → Bool} (hworker : ∃ w, worker w = true) (now : UInt64) :
    Inv (init worker now : Workers φ ψ ω ι) where
  timers := inv_new now
  exec _ hf := by cases hf
  queue hne := absurd rfl hne
  tickled htrue := by cases htrue
  polled _ := by
    obtain ⟨w, hw⟩ := hworker
    exact .inl ⟨w, by simp [init, hw, Place.pollsAhead]⟩

/-- With at least one worker, in a run in which every `tickle` that finds an idle worker is heard,
no wake-up is ever lost. -/
theorem never_lost [DecidableEq ψ] (worker : ι → Bool) (hworker : ∃ w, worker w = true)
    (now : UInt64) (ls : List (Wake φ ψ ω ι)) {s : Workers φ ψ ω ι}
    (h : Run (Guard Heard Step) (init worker now) ls s) : ¬Lost s := by
  have hinv : Inv s := h.invariant (I := Inv) (fun _ _ _ hu hst => hst.2.inv hu hst.1)
    (inv_init hworker now)
  exact hinv.not_lost

/-- The worker finds nothing and waits; then a task is scheduled from outside. -/
def scheduleAsleep : List (Wake Nat Nat Nat Bool) :=
  [.scan true 0, .enter true, .poll true 100, .schedule false [⟨.cb 7, none⟩], .test false]

theorem run_scheduleAsleep : ∃ s : Workers Nat Nat Nat Bool,
    Run Step (init id 100) scheduleAsleep s ∧ Lost s := by
  refine ⟨?_, ?_, ?_⟩
  rotate_left 1
  · refine .cons (.scan rfl rfl 0) ?_
    refine .cons (.enter rfl rfl) ?_
    refine .cons (.poll rfl 100) ?_
    refine .cons (.schedule rfl rfl _) ?_
    refine .cons (.test rfl) ?_
    exact .nil _
  · refine ⟨?_, ?_, rfl, .inl ⟨⟨.cb 7, none⟩, List.mem_singleton_self _, rfl⟩⟩
    · intro i
      cases i with
      | false => exact .inl rfl
      | true => exact .inr ⟨none, rfl⟩
    · intro i
      cases i <;> rfl

/-- A task scheduled before the worker has looked. -/
theorem never_lost_scheduleFirst : ∃ s : Workers Nat Nat Nat Bool,
    s.m_fibers = [⟨.cb 7, none⟩] ∧ s.pipe = 1 ∧ ¬Lost s := by
  refine ⟨?_, ?_, ?_, never_lost id ⟨true, rfl⟩ 100
    [.schedule false [⟨.cb 7, none⟩], .test false, .write false] ?_⟩
  rotate_left 3
  · refine .cons ⟨trivial, .schedule rfl rfl _⟩ ?_
    refine .cons ⟨fun hidle => absurd hidle (Nat.lt_irrefl 0), .test rfl⟩ ?_
    refine .cons ⟨trivial, .write rfl⟩ ?_
    exact .nil _
  · rfl
  · rfl

theorem not_never_lost : ¬∀ (worker : Bool → Bool), (∃ w, worker w = true) → ∀ (now : UInt64)
    (ls : List (Wake Nat Nat Nat Bool)) (s : Workers Nat Nat Nat Bool),
      Run Step (init worker now) ls s → ¬Lost s := by
  intro hall
  obtain ⟨s, hrun, hlost⟩ := run_scheduleAsleep
  exact hall id ⟨true, rfl⟩ 100 _ s hrun hlost

end Workers

end Captain.IOManager
