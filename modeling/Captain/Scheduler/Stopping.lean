import Captain.Scheduler.Ledger

/-!
# `Scheduler::stopping`

A `Control` is a pool with the flags of `start` and `stop`. A worker whose idle fiber finds
`stopping()` true goes round the loop of `run` once more and exits if the scan takes nothing.
`IOManager::stopping` asks for more before it asks `Scheduler::stopping`; here an idle fiber may go
on although `stopping()` is true.

* `stopping_quiet_iff`: in a run, every `stopping()` that returns true finds the scheduler without
  work exactly when none of them falls between the `--m_activeThreadCount` for a fiber that came
  back `READY` and the `schedule` of that fiber. A scheduler without work stays so until somebody
  schedules.
-/

namespace Captain.Scheduler

open Transition

variable {φ ι : Type}

/-- The worker has nothing that `m_activeThreadCount` counts, and is not to decide what becomes of
a fiber or to schedule it. -/
def Pc.calm : Pc φ ι → Bool
  | .scanning | .idle | .on _ _ .settling => true
  | _ => false

namespace Pool

/-- The worker has counted down for a fiber that came back `READY` and not scheduled it yet. -/
def Rescheduling (s : Pool φ ι) (i : ι) : Prop :=
  match s.pc i with
  | .on _ fiber .deciding => ∃ f, s.heap fiber = some f ∧ f.m_state = .READY
  | .on _ _ .requeueing => True
  | _ => False

/-- No work is left: none in the queue, none with a worker, and no fiber to be put back. -/
structure Quiet (s : Pool φ ι) : Prop where
  queue : s.m_fibers = []
  inactive : ∀ i, (s.pc i).active = false
  settled : ∀ i, ¬s.Rescheduling i

theorem not_rescheduling_of_calm {s : Pool φ ι} {i : ι} (h : (s.pc i).calm = true) :
    ¬s.Rescheduling i := by
  unfold Rescheduling
  cases hpc : s.pc i with
  | scanning | idle => exact not_false
  | holding ft =>
    rw [hpc] at h
    cases h
  | on ft fiber stage =>
    rw [hpc] at h
    cases stage <;> first | exact not_false | cases h

theorem inactive_of_calm {pc : Pc φ ι} (h : pc.calm = true) : pc.active = false := by
  cases pc with
  | scanning | idle => rfl
  | holding ft => cases h
  | on ft fiber stage => cases stage <;> first | rfl | cases h

section

variable [DecidableEq ι] {s s' : Pool φ ι} {l : Move φ ι}

theorem Quiet.goto (h : Quiet s) (i : ι) {pc : Pc φ ι} (hpc : pc.calm = true) :
    Quiet (s.goto i pc) := by
  have hcases : ∀ j, (s.goto i pc).pc j = s.pc j ∨ ((s.goto i pc).pc j).calm = true := by
    intro j
    show Function.update s.pc i pc j = _ ∨ (Function.update s.pc i pc j).calm = true
    by_cases hj : j = i
    · rw [hj, Function.update_self]
      exact .inr hpc
    · exact .inl (Function.update_of_ne hj _ _)
  refine ⟨h.queue, fun j => ?_, fun j hres => ?_⟩
  · rcases hcases j with heq | hcalm
    · rw [heq]
      exact h.inactive j
    · exact inactive_of_calm hcalm
  · rcases hcases j with heq | hcalm
    · apply h.settled j
      unfold Rescheduling at hres ⊢
      rwa [heq] at hres
    · exact not_rescheduling_of_calm hcalm hres

omit [DecidableEq ι] in
theorem Quiet.setFiber (h : Quiet s) (g : Nat) {f' : Fiber φ} (hf' : f'.m_state ≠ .READY) :
    Quiet (s.setFiber g f') := by
  refine ⟨h.queue, h.inactive, fun j hres => h.settled j ?_⟩
  unfold Rescheduling at hres ⊢
  change match s.pc j with
    | .on _ fiber .deciding =>
      ∃ f, Function.update s.heap g (some f') fiber = some f ∧ f.m_state = .READY
    | .on _ _ .requeueing => True
    | _ => False at hres
  split at hres
  · rename_i fiber hpc
    obtain ⟨f, hf, hstate⟩ := hres
    by_cases hg : fiber = g
    · rw [hg, Function.update_self] at hf
      cases hf
      exact absurd hstate hf'
    · rw [Function.update_of_ne hg] at hf
      exact ⟨f, hf, hstate⟩
  · trivial
  · cases hres

theorem Quiet.dropCbFiber (h : Quiet s) (i : ι) (task : Task φ Nat) :
    Quiet (s.dropCbFiber i task) := by
  cases task with
  | cb cb => exact ⟨h.queue, h.inactive, h.settled⟩
  | fiber fiber => exact h

/-- **Step lemma.** A scheduler without work stays so until something is scheduled. -/
theorem Step.quiet (hstep : Step s l s') (hl : ∀ ft, l ≠ .schedule ft) (h : Quiet s) :
    Quiet s' := by
  have hbusy : ∀ i pc, s.pc i = pc → pc.active = true → Quiet s' := by
    intro i pc hpc hactive
    have hno := h.inactive i
    rw [hpc, hactive] at hno
    cases hno
  cases hstep with
  | make hnew cb => exact h.setFiber _ (by simp [Fiber.make])
  | schedule ft => exact absurd rfl (hl ft)
  | @take i hpc ft hft =>
    have hnone : (s.scan i).ft = none := by
      rw [scan, h.queue]
      rfl
    rw [hnone] at hft
    cases hft
  | @pass i hpc hft => exact h.goto i rfl
  | chooseFiber hpc | discard hpc | reuse hpc | fresh hpc => exact hbusy _ _ hpc rfl
  | swapIn hpc | yield hpc | finish hpc | swapOut hpc | decrement hpc => exact hbusy _ _ hpc rfl
  | @ready i ft fiber hpc f hf hstate =>
    apply absurd _ (h.settled i)
    unfold Rescheduling
    rw [hpc]
    exact ⟨f, hf, hstate⟩
  | @endFiber i => exact h.goto i rfl
  | @endCb i ft fiber hpc f f' hf hstate cb htask hreset =>
    exact (h.setFiber fiber (by simp [(Fiber.reset_eq_some.mp hreset).2])).goto i rfl
  | @hold i => exact h.goto i rfl
  | @requeue i ft fiber hpc =>
    apply absurd _ (h.settled i)
    unfold Rescheduling
    rw [hpc]
    trivial
  | @settle i ft fiber hpc f hf =>
    exact ((h.setFiber fiber (by simp)).dropCbFiber i ft.task).goto i rfl
  | @wake i => exact h.goto i rfl

end

/-! ## Fibers that do not yield to `READY` -/

def Pc.requeues : Pc φ ι → Bool
  | .on _ _ .requeueing => true
  | _ => false

/-- No fiber is `READY`, and none is to be put back. -/
structure Unready (s : Pool φ ι) : Prop where
  heap : ∀ fiber f, s.heap fiber = some f → f.m_state ≠ .READY
  pc : ∀ i, Pc.requeues (s.pc i) = false

theorem unready_init : (init : Pool φ ι).Unready where
  heap fiber f h := by cases h
  pc _ := rfl

theorem Unready.not_rescheduling {s : Pool φ ι} (h : s.Unready) (i : ι) : ¬s.Rescheduling i := by
  have hpc := h.pc i
  unfold Rescheduling
  cases hs : s.pc i with
  | scanning | idle | holding ft => exact not_false
  | on ft fiber stage =>
    rw [hs] at hpc
    cases stage with
    | deciding =>
      rintro ⟨f, hf, hstate⟩
      exact h.heap fiber f hf hstate
    | requeueing => cases hpc
    | _ => exact not_false

theorem Unready.of_same {s s' : Pool φ ι} (h : s.Unready) (hheap : s'.heap = s.heap)
    (hpc : s'.pc = s.pc) : s'.Unready :=
  ⟨hheap ▸ h.heap, hpc ▸ h.pc⟩

theorem Unready.setFiber {s : Pool φ ι} (h : s.Unready) (fiber : Nat) {f : Fiber φ}
    (hf : f.m_state ≠ .READY) : (s.setFiber fiber f).Unready := by
  refine ⟨fun fiber' f' hf' => ?_, h.pc⟩
  change Function.update s.heap fiber (some f) fiber' = some f' at hf'
  by_cases heq : fiber' = fiber
  · rw [heq, Function.update_self] at hf'
    cases hf'
    exact hf
  · rw [Function.update_of_ne heq] at hf'
    exact h.heap fiber' f' hf'

section

variable [DecidableEq ι] {s s' : Pool φ ι} {l : Move φ ι}

theorem Unready.goto (h : s.Unready) (i : ι) {pc : Pc φ ι} (hpc : Pc.requeues pc = false) :
    (s.goto i pc).Unready := by
  refine ⟨h.heap, fun j => ?_⟩
  show Pc.requeues (Function.update s.pc i pc j) = false
  by_cases hj : j = i
  · rw [hj, Function.update_self]
    exact hpc
  · rw [Function.update_of_ne hj]
    exact h.pc j

theorem Unready.dropCbFiber (h : s.Unready) (i : ι) (task : Task φ Nat) :
    (s.dropCbFiber i task).Unready := by
  obtain ⟨hheap, hpc, -⟩ := s.dropCbFiber_frame i task
  exact h.of_same hheap hpc

/-- **Step.** Only a yield makes a fiber `READY`. -/
theorem Step.unready (hstep : Step s l s') (hl : ∀ i, l ≠ .yield i true) (h : s.Unready) :
    s'.Unready := by
  cases hstep with
  | make hnew cb => exact h.setFiber _ (by decide : FiberState.INIT ≠ .READY)
  | schedule ft => exact h.of_same rfl rfl
  | take hpc hft =>
    apply Unready.goto
    · exact h.of_same rfl rfl
    · rfl
  | discard hpc htask hf hstate =>
    apply Unready.goto
    · exact h.of_same rfl rfl
    · rfl
  | decrement hpc =>
    apply Unready.goto
    · exact h.of_same rfl rfl
    · rfl
  | reuse hpc htask hcb hf hreset =>
    obtain ⟨-, rfl⟩ := Fiber.reset_eq_some.mp hreset
    exact (h.setFiber _ (by decide : FiberState.INIT ≠ .READY)).goto _ rfl
  | @fresh i ft hpc cb htask hcb fiber hnew =>
    have hmade := @Unready.setFiber _ _ s h fiber (.make cb) (by decide : FiberState.INIT ≠ .READY)
    apply Unready.goto
    · exact hmade.of_same rfl rfl
    · rfl
  | swapIn hpc hf hswap =>
    obtain ⟨-, rfl⟩ := Fiber.swapIn_eq_some.mp hswap
    exact (h.setFiber _ (by decide : FiberState.EXEC ≠ .READY)).goto _ rfl
  | yield hpc hf ready =>
    cases ready with
    | true => exact absurd rfl (hl _)
    | false => exact (h.setFiber _ (by decide : FiberState.HOLD ≠ .READY)).goto _ rfl
  | finish hpc hf thrown =>
    refine (h.setFiber _ ?_).goto _ rfl
    cases thrown with
    | true => exact FiberState.noConfusion
    | false => exact FiberState.noConfusion
  | swapOut hpc hf =>
    have hstate := h.heap _ _ hf
    apply Unready.goto
    · exact h.setFiber _ hstate
    · rfl
  | ready hpc hf hstate => exact absurd hstate (h.heap _ _ hf)
  | endCb hpc hf hstate htask hreset =>
    obtain ⟨-, rfl⟩ := Fiber.reset_eq_some.mp hreset
    exact (h.setFiber _ (by decide : FiberState.INIT ≠ .READY)).goto _ rfl
  | @requeue i ft fiber hpc =>
    have hfalse := h.pc i
    rw [hpc] at hfalse
    cases hfalse
  | settle hpc hf =>
    exact ((h.setFiber _ (by decide : FiberState.HOLD ≠ .READY)).dropCbFiber _ _).goto _ rfl
  | _ => exact h.goto _ rfl

end

end Pool

structure Control (φ ι : Type) where
  pool : Pool φ ι
  m_autoStop : Bool
  m_stopping : Bool
  /-- the idle fiber has ended -/
  idle_term : ι → Bool
  exited : ι → Bool

/-- The worker that makes a move. -/
def Move.worker : Move φ ι → Option ι
  | .make .. | .schedule _ => none
  | .scan i | .choose i _ | .swapIn i | .yield i _ | .finish i _ | .swapOut i | .decrement i
  | .decide i | .requeue i | .settle i | .wake i => some i

inductive Signal (φ ι : Type)
  | move (l : Move φ ι)
  | start
  | setAutoStop
  | setStopping
  | stopping
  | endIdle (i : ι)
  | exit (i : ι)

/-- The step is a call of `stopping()` that returns true. -/
def Signal.asks : Signal φ ι → Bool
  | .stopping | .endIdle _ => true
  | _ => false

namespace Control

def init : Control φ ι := ⟨.init, false, true, fun _ => false, fun _ => false⟩

/-- `Scheduler::stopping`. -/
def stopping (s : Control φ ι) : Bool :=
  s.m_autoStop && s.m_stopping && s.pool.m_fibers.isEmpty && s.pool.m_activeThreadCount == 0

variable [DecidableEq ι]

inductive Step : Control φ ι → Signal φ ι → Control φ ι → Prop
  | move {s : Control φ ι} {l : Move φ ι} {p : Pool φ ι} (hstep : Pool.Step s.pool l p)
      (halive : ∀ i, l.worker = some i → s.exited i = false)
      (hidle : ∀ i, l = .scan i → s.idle_term i = true → (s.pool.scan i).ft ≠ none) :
      Step s (.move l) { s with pool := p }
  | start (s : Control φ ι) : Step s .start { s with m_stopping := false }
  | setAutoStop (s : Control φ ι) : Step s .setAutoStop { s with m_autoStop := true }
  | setStopping (s : Control φ ι) : Step s .setStopping { s with m_stopping := true }
  | stopping {s : Control φ ι} (hstop : s.stopping = true) : Step s .stopping s
  -- `while(!stopping())` ends, and `idle` with it
  | endIdle {s : Control φ ι} {i : ι} (hpc : s.pool.pc i = .idle) (hstop : s.stopping = true) :
      Step s (.endIdle i)
        { s with pool := s.pool.goto i .scanning, idle_term := Function.update s.idle_term i true }
  -- `if(idle_fiber->getState() == Fiber::TERM) break;`
  | exit {s : Control φ ι} {i : ι} (hpc : s.pool.pc i = .scanning)
      (hft : (s.pool.scan i).ft = none) (hterm : s.idle_term i = true)
      (halive : s.exited i = false) :
      Step s (.exit i) { s with exited := Function.update s.exited i true }

variable {s s' : Control φ ι} {l : Signal φ ι}

theorem Step.stopping_of_asks (hstep : Step s l s') (hl : l.asks = true) : s.stopping = true := by
  cases hstep with
  | stopping hstop => exact hstop
  | endIdle hpc hstop => exact hstop
  | _ => cases hl

theorem Step.quiet (hstep : Step s l s') (hl : ∀ ft, l ≠ .move (.schedule ft))
    (h : s.pool.Quiet) : s'.pool.Quiet := by
  cases hstep with
  | move hstep halive hidle => exact hstep.quiet (fun ft hft => hl ft (congrArg _ hft)) h
  | endIdle hpc hstop => exact (Pool.Step.wake hpc).quiet (fun _ hft => by cases hft) h
  | _ => exact h

theorem Step.unready (hstep : Step s l s') (hl : ∀ i, l ≠ .move (.yield i true))
    (h : s.pool.Unready) : s'.pool.Unready := by
  cases hstep with
  | move hstep halive hidle => exact hstep.unready (fun i hi => hl i (congrArg _ hi)) h
  | endIdle hpc hstop => exact h.goto _ rfl
  | _ => exact h

theorem run_quiet {ls : List (Signal φ ι)} (hrun : Run Step s ls s')
    (hls : ∀ ft, .move (.schedule ft) ∉ ls) (h : s.pool.Quiet) : s'.pool.Quiet := by
  induction hrun with
  | nil => exact h
  | cons hstep hrun ih =>
    apply ih
    · intro ft hmem
      exact hls ft (List.mem_cons_of_mem _ hmem)
    · apply hstep.quiet _ h
      rintro ft rfl
      exact hls ft List.mem_cons_self

theorem run_unready {ls : List (Signal φ ι)} (hrun : Run Step s ls s')
    (hls : ∀ i, .move (.yield i true) ∉ ls) (h : s.pool.Unready) : s'.pool.Unready := by
  induction hrun with
  | nil => exact h
  | cons hstep hrun ih =>
    refine ih (fun i hmem => hls i (List.mem_cons_of_mem _ hmem)) (hstep.unready ?_ h)
    rintro i rfl
    exact hls i List.mem_cons_self

/-- A worker exits after its idle fiber has ended, which a `stopping()` of its own does. -/
theorem Step.exited {i : ι} (hstep : Step s l s')
    (h : s.exited i = true → s.idle_term i = true) :
    (s'.exited i = true → s'.idle_term i = true) ∧
      (s'.idle_term i = true → s.idle_term i = true ∨ l = .endIdle i) := by
  cases hstep with
  | @endIdle j hpc hstop =>
    by_cases hj : i = j
    · subst hj
      exact ⟨fun _ => Function.update_self .., fun _ => .inr rfl⟩
    · have hterm : Function.update s.idle_term j true i = s.idle_term i :=
        Function.update_of_ne hj _ _
      refine ⟨fun hex => hterm.trans (h hex), fun ht => .inl ?_⟩
      exact hterm.symm.trans ht
  | @exit j hpc hft hterm halive =>
    refine ⟨fun hex => ?_, fun ht => .inl ht⟩
    by_cases hj : i = j
    · rw [hj]
      exact hterm
    · apply h
      exact (Function.update_of_ne hj _ _).symm.trans hex
  | _ => exact ⟨h, .inl⟩

theorem run_exited {ls : List (Signal φ ι)} (hrun : Run Step s ls s') (i : ι)
    (h : s.exited i = true → s.idle_term i = true) (hterm : s.idle_term i = false)
    (hex : s'.exited i = true) : .endIdle i ∈ ls := by
  induction hrun with
  | nil s =>
    rw [h hex] at hterm
    cases hterm
  | @cons s t u l ls hstep hrun ih =>
    obtain ⟨hkeep, hchange⟩ := hstep.exited h
    cases ht : t.idle_term i with
    | false => exact List.mem_cons_of_mem _ (ih hkeep ht hex)
    | true =>
      rcases hchange ht with htrue | rfl
      · rw [hterm] at htrue
        cases htrue
      · exact List.mem_cons_self

variable [Fintype ι]

theorem Step.counted (hstep : Step s l s') (h : s.pool.Counted) : s'.pool.Counted := by
  cases hstep with
  | move hstep halive hidle => exact hstep.counted h
  | endIdle hpc hstop => exact (Pool.Step.wake hpc).counted h
  | _ => exact h

omit [DecidableEq ι] in
/-- When `stopping()` returns true, only a fiber that is to be put back can be left. -/
theorem quiet_iff (h : s.pool.Counted) (hstop : s.stopping = true) :
    s.pool.Quiet ↔ ∀ i, ¬s.pool.Rescheduling i := by
  unfold stopping at hstop
  rw [Bool.and_eq_true, Bool.and_eq_true, beq_iff_eq] at hstop
  obtain ⟨⟨-, hempty⟩, hzero⟩ := hstop
  refine ⟨fun hquiet => hquiet.settled, fun hno => ⟨List.isEmpty_iff.mp hempty, fun i => ?_, hno⟩⟩
  have hsum : (∑ i, (s.pool.pc i).active.toNat) = 0 := by
    rw [h] at hzero
    exact Int.natCast_eq_zero.mp hzero
  have hi := (Finset.sum_eq_zero_iff.mp hsum) i (Finset.mem_univ i)
  rwa [Bool.toNat_eq_zero] at hi

theorem run_counted {ls : List (Signal φ ι)} (h : Run Step init ls s) : s.pool.Counted :=
  h.invariant (I := fun s => s.pool.Counted) (fun _ _ _ hs hstep => hstep.counted hs)
    Pool.counted_init

/-- In every run: each `stopping()` that returns true finds no work left exactly when none of them
finds a fiber that is to be put back; from a state without work no work comes until somebody
schedules; and a worker that has exited has called such a `stopping()`. -/
theorem stopping_quiet_iff (ls : List (Signal φ ι)) (h : Run Step init ls s) :
    ((∀ pre l post u v, ls = pre ++ l :: post → Run Step init pre u → Step u l v →
        Run Step v post s → l.asks = true → u.pool.Quiet) ↔
      ∀ pre l post u v, ls = pre ++ l :: post → Run Step init pre u → Step u l v →
        Run Step v post s → l.asks = true → ∀ i, ¬u.pool.Rescheduling i) ∧
      (∀ pre post u, ls = pre ++ post → Run Step init pre u → Run Step u post s →
        u.pool.Quiet → (∀ ft, .move (.schedule ft) ∉ post) → s.pool.Quiet) ∧
      ∀ i, s.exited i = true → .endIdle i ∈ ls := by
  refine ⟨⟨?_, ?_⟩, ?_, ?_⟩
  · intro hquiet pre l post u v hls hu hstep hv hl
    exact (hquiet pre l post u v hls hu hstep hv hl).settled
  · intro hno pre l post u v hls hu hstep hv hl
    apply (quiet_iff (run_counted hu) (hstep.stopping_of_asks hl)).mpr
    exact hno pre l post u v hls hu hstep hv hl
  · intro pre post u _ _ hpost hu hno
    exact run_quiet hpost hno hu
  · intro i hex
    exact run_exited h i (fun h => by cases h) rfl hex

/-- A callback is run to its end, and then the scheduler is stopped. -/
def stopAfterCallback : List (Signal Nat Bool) :=
  [.start, .move (.schedule ⟨.cb 7, none⟩), .move (.scan true), .move (.choose true 0),
    .move (.swapIn true), .move (.finish true false), .move (.swapOut true),
    .move (.decrement true), .move (.decide true), .setAutoStop, .setStopping,
    .move (.scan true), .endIdle true, .exit true]

theorem run_stopAfterCallback : ∃ s : Control Nat Bool, Run Step init stopAfterCallback s := by
  refine ⟨?_, ?_⟩
  rotate_left 1
  refine .cons (.start _) ?_
  refine .cons (.move (.schedule _ ⟨.cb 7, none⟩) (fun _ h => by cases h)
    (fun _ h => by cases h)) ?_
  refine .cons (.move (.take rfl rfl) (fun _ _ => rfl) (fun _ _ h => by cases h)) ?_
  refine .cons (.move (.fresh rfl rfl rfl rfl) (fun _ _ => rfl) (fun _ h => by cases h)) ?_
  refine .cons (.move (.swapIn rfl rfl rfl) (fun _ _ => rfl) (fun _ h => by cases h)) ?_
  refine .cons (.move (.finish rfl rfl false) (fun _ _ => rfl) (fun _ h => by cases h)) ?_
  refine .cons (.move (.swapOut rfl rfl) (fun _ _ => rfl) (fun _ h => by cases h)) ?_
  refine .cons (.move (.decrement rfl) (fun _ _ => rfl) (fun _ h => by cases h)) ?_
  refine .cons (.move (.endCb rfl rfl rfl rfl rfl) (fun _ _ => rfl) (fun _ h => by cases h)) ?_
  refine .cons (.setAutoStop _) ?_
  refine .cons (.setStopping _) ?_
  refine .cons (.move (.pass rfl rfl) (fun _ _ => rfl) (fun _ _ h => by cases h)) ?_
  refine .cons (.endIdle rfl rfl) ?_
  refine .cons (.exit rfl rfl rfl rfl) ?_
  exact .nil _

/-- Its worker finds no work left when it asks. -/
theorem stopping_quiet_iff_stopAfterCallback : ∃ s : Control Nat Bool,
    Run Step init stopAfterCallback s ∧
      ∀ pre l post u v, stopAfterCallback = pre ++ l :: post → Run Step init pre u → Step u l v →
        Run Step v post s → l.asks = true → u.pool.Quiet := by
  obtain ⟨s, hrun⟩ := run_stopAfterCallback
  refine ⟨s, hrun, (stopping_quiet_iff _ hrun).1.mpr fun pre l post u v hls hu _ _ _ => ?_⟩
  refine (run_unready hu (fun i hmem => ?_) Pool.unready_init).not_rescheduling
  have hall : .move (.yield i true) ∈ stopAfterCallback :=
    hls ▸ List.mem_append_left _ hmem
  simp [stopAfterCallback] at hall

/-- A fiber yields to `READY`, and its worker counts down; then the scheduler is stopped. -/
def stopAfterYield : List (Signal Nat Bool) :=
  [.start, .move (.make 0 7), .move (.schedule ⟨.fiber 0, none⟩), .move (.scan true),
    .move (.choose true 0), .move (.swapIn true), .move (.yield true true), .move (.swapOut true),
    .move (.decrement true), .setAutoStop, .setStopping]

theorem run_stopAfterYield : ∃ s : Control Nat Bool,
    Run Step init stopAfterYield s ∧ s.stopping = true ∧ s.pool.Rescheduling true := by
  refine ⟨?_, ?_, ?_, ?_⟩
  rotate_left 1
  · refine .cons (.start _) ?_
    refine .cons (.move (.make rfl 7) (fun _ h => by cases h) (fun _ h => by cases h)) ?_
    refine .cons (.move (.schedule _ ⟨.fiber 0, none⟩) (fun _ h => by cases h)
      (fun _ h => by cases h)) ?_
    refine .cons (.move (.take rfl rfl) (fun _ _ => rfl) (fun _ _ h => by cases h)) ?_
    refine .cons (.move (.chooseFiber rfl rfl rfl rfl) (fun _ _ => rfl) (fun _ h => by cases h)) ?_
    refine .cons (.move (.swapIn rfl rfl rfl) (fun _ _ => rfl) (fun _ h => by cases h)) ?_
    refine .cons (.move (.yield rfl rfl true) (fun _ _ => rfl) (fun _ h => by cases h)) ?_
    refine .cons (.move (.swapOut rfl rfl) (fun _ _ => rfl) (fun _ h => by cases h)) ?_
    refine .cons (.move (.decrement rfl) (fun _ _ => rfl) (fun _ h => by cases h)) ?_
    refine .cons (.setAutoStop _) ?_
    refine .cons (.setStopping _) ?_
    exact .nil _
  · rfl
  · exact ⟨_, rfl, rfl⟩

theorem not_stopping_quiet : ¬∀ (ls : List (Signal Nat Bool)) (s : Control Nat Bool),
    Run Step init ls s → s.stopping = true → s.pool.Quiet := by
  intro hall
  obtain ⟨s, hrun, hstop, hres⟩ := run_stopAfterYield
  exact (hall _ s hrun hstop).settled true hres

end Control

end Captain.Scheduler
