import Captain.Scheduler.Reuse

/-!
# One loop of `Scheduler::run` (`captain/scheduler.cpp`)

A `Loop` is a pool with one worker and the worker's idle fiber. The heap and the queue at the start
are any; the code of the fibers and of other threads is free.

* `assertions_hold`: in every run `Fiber::reset` and `Fiber::swapIn` find the states that their
  assertions ask for, and no suspended fiber is reset.
-/

namespace Captain.Scheduler

open Transition

variable {φ : Type}

/-- The worker in the branch of the idle fiber. -/
inductive IdleStage
  | resting
  | executing
  | returned
  /-- The fiber went on after its end: `never reach` in `MainFunc`. -/
  | aborted
  /-- `run` is left. -/
  | stopped
  deriving DecidableEq, Repr

structure Loop (φ : Type) where
  pool : Pool φ Unit
  idle_fiber : Nat
  stage : IdleStage
  m_idleThreadCount : Int

inductive LoopMove (φ : Type)
  | move (l : Move φ Unit)
  | stop
  | swapIn
  | yield (ready : Bool)
  | swapOut
  | finish (thrown : Bool)
  | settle

/-- An empty `std::function` throws when it is called. -/
def Pool.Calls (s : Pool φ Unit) : Move φ Unit → Prop
  | .yield _ _ | .finish _ false => ∀ ft fiber f, s.pc () = .on ft fiber .executing →
    s.heap fiber = some f → f.m_cb ≠ none
  | _ => True

/-- The fiber that a step swaps in. -/
def Pool.swapsIn (s : Pool φ Unit) : Move φ Unit → Option Nat
  | .swapIn _ =>
    match s.pc () with
    | .on _ fiber .entering => some fiber
    | _ => none
  | _ => none

namespace Loop

/-- `run` before its first round: `idle_fiber` is new, and there is no `cb_fiber`. -/
structure Initial (s : Loop φ) : Prop where
  pc : s.pool.pc () = .scanning
  cb_fiber : s.pool.cb_fiber () = none
  idle_fiber : ∃ cb, s.pool.heap s.idle_fiber = some (.make cb)
  stage : s.stage = .resting

/-- The idle fiber when `run` has set its state. -/
def settled (f : Fiber φ) : Fiber φ :=
  if f.m_state.ended then f else { f with m_state := .HOLD }

def setIdle (s : Loop φ) (f : Fiber φ) (stage : IdleStage) : Loop φ :=
  { s with pool := s.pool.setFiber s.idle_fiber f, stage := stage }

inductive Step : Loop φ → LoopMove φ → Loop φ → Prop
  | move {s : Loop φ} {l : Move φ Unit} {p : Pool φ Unit} (hstep : Pool.Step s.pool l p)
      (hwake : l ≠ .wake ()) (hcalls : s.pool.Calls l) : Step s (.move l) { s with pool := p }
  | stop {s : Loop φ} (hpc : s.pool.pc () = .idle) (hstage : s.stage = .resting) {f : Fiber φ}
      (hf : s.pool.heap s.idle_fiber = some f) (hterm : f.m_state = .TERM) :
      Step s .stop { s with stage := .stopped }
  | swapIn {s : Loop φ} (hpc : s.pool.pc () = .idle) (hstage : s.stage = .resting) {f f' : Fiber φ}
      (hf : s.pool.heap s.idle_fiber = some f) (hterm : f.m_state ≠ .TERM)
      (hswap : f.swapIn = some f') :
      Step s .swapIn
        { s.setIdle f' (if f.m_state = .EXCEPT then .aborted else .executing) with
          m_idleThreadCount := s.m_idleThreadCount + 1 }
  | yield {s : Loop φ} (hstage : s.stage = .executing) {f : Fiber φ}
      (hf : s.pool.heap s.idle_fiber = some f) (ready : Bool) :
      Step s (.yield ready) (s.setIdle (f.yield ready).swapOut .returned)
  -- `raw_ptr->swapOut()` in `IOManager::idle`
  | swapOut {s : Loop φ} (hstage : s.stage = .executing) {f : Fiber φ}
      (hf : s.pool.heap s.idle_fiber = some f) : Step s .swapOut (s.setIdle f.swapOut .returned)
  | finish {s : Loop φ} (hstage : s.stage = .executing) {f : Fiber φ}
      (hf : s.pool.heap s.idle_fiber = some f) (thrown : Bool) :
      Step s (.finish thrown) (s.setIdle (f.finish thrown).swapOut .returned)
  | settle {s : Loop φ} (hstage : s.stage = .returned) {f : Fiber φ}
      (hf : s.pool.heap s.idle_fiber = some f) :
      Step s .settle
        ⟨(s.pool.setFiber s.idle_fiber (settled f)).goto () .scanning, s.idle_fiber, .resting,
          s.m_idleThreadCount - 1⟩

/-- The fiber whose `reset` a step calls. -/
def resets (s : Loop φ) : LoopMove φ → Option Nat
  | .move l => s.pool.resets l
  | _ => none

/-- The fiber whose `swapIn` a step calls. -/
def swapsIn (s : Loop φ) : LoopMove φ → Option Nat
  | .move l => s.pool.swapsIn l
  | .swapIn =>
    match s.pool.pc (), s.stage, s.pool.heap s.idle_fiber with
    | .idle, .resting, some f => if f.m_state = .TERM then none else some s.idle_fiber
    | _, _, _ => none
  | _ => none

end Loop

/-! ## The invariant -/

/-- The assertion of `Fiber::reset` on the state. -/
def Resettable (f : Fiber φ) : Prop := f.m_state = .TERM ∨ f.m_state = .EXCEPT ∨ f.m_state = .INIT

/-- The state of the fiber that the worker is on. -/
def StageOk (f : Fiber φ) : Stage → Prop
  | .entering => f.m_state ≠ .EXEC
  | .executing => f.m_state = .EXEC
  | .leaving | .returned | .deciding => f.m_state ≠ .EXEC ∧ f.m_state ≠ .INIT
  | .requeueing => f.m_state = .READY
  | .settling => f.m_state = .HOLD

theorem StageOk.ne_exec {f : Fiber φ} {stage : Stage} (h : StageOk f stage)
    (hstage : stage ≠ .executing) : f.m_state ≠ .EXEC := by
  intro hexec
  cases stage with
  | executing => exact hstage rfl
  | entering => exact h hexec
  | leaving | returned | deciding => exact h.1 hexec
  | requeueing => cases hexec.symm.trans h
  | settling => cases hexec.symm.trans h

namespace Loop

/-- The worker runs the callback for which it keeps the fiber. -/
def OnCb (pc : Pc φ Unit) (fiber : Nat) : Prop :=
  ∃ ft stage, pc = .on ft fiber stage ∧ ft.task.isCb = true

def Executes (pc : Pc φ Unit) (fiber : Nat) : Prop := ∃ ft, pc = .on ft fiber .executing

/-- The fiber that is kept for the next callback: it has none, and its state is one in which it can
be reset, unless it executes for an entry of the queue. -/
def Kept (pc : Pc φ Unit) (fiber : Nat) (f : Fiber φ) : Prop :=
  f.m_cb = none ∧ (Resettable f ∨ Executes pc fiber)

structure Inv (s : Loop φ) : Prop where
  /-- The entry that was taken is not executing. -/
  held : ∀ ft fiber f, s.pool.pc () = .holding ft → ft.task = .fiber fiber →
    s.pool.heap fiber = some f → f.m_state ≠ .EXEC
  on : ∀ ft fiber stage, s.pool.pc () = .on ft fiber stage →
    ∃ f, s.pool.heap fiber = some f ∧ StageOk f stage
  own : ∀ ft fiber stage, s.pool.pc () = .on ft fiber stage → ft.task.isCb = true →
    s.pool.cb_fiber () = some fiber
  cb : ∀ c, s.pool.cb_fiber () = some c → c ≠ s.idle_fiber ∧
    ∃ f, s.pool.heap c = some f ∧ (OnCb (s.pool.pc ()) c ∨ Kept (s.pool.pc ()) c f)
  idle : ∃ f, s.pool.heap s.idle_fiber = some f ∧
    (f.m_state = .EXEC → Executes (s.pool.pc ()) s.idle_fiber ∨ s.stage ≠ .resting)
  away : s.stage ≠ .resting → s.pool.pc () = .idle
  idling : s.stage = .executing → ∃ f, s.pool.heap s.idle_fiber = some f ∧ f.m_state = .EXEC

variable {s t : Loop φ}

/-- Off the idle branch the idle fiber rests. -/
theorem Inv.resting (h : s.Inv) {pc : Pc φ Unit} (hpc : s.pool.pc () = pc) (hne : pc ≠ .idle) :
    s.stage = .resting := by
  by_contra haway
  exact hne (hpc.symm.trans (h.away haway))

theorem not_executing (h : s.stage = .resting) {p : Prop} : s.stage = .executing → p := by
  intro hexec
  rw [h] at hexec
  cases hexec

/-- The worker has no entry. -/
theorem Inv.of_off (hpc : s.pool.pc () = .scanning ∨ s.pool.pc () = .idle)
    (hcb : ∀ c, s.pool.cb_fiber () = some c → c ≠ s.idle_fiber ∧
      ∃ f, s.pool.heap c = some f ∧ f.m_cb = none ∧ Resettable f)
    (hidle : ∃ f, s.pool.heap s.idle_fiber = some f ∧ (f.m_state = .EXEC → s.stage ≠ .resting))
    (haway : s.stage ≠ .resting → s.pool.pc () = .idle)
    (hidling : s.stage = .executing →
      ∃ f, s.pool.heap s.idle_fiber = some f ∧ f.m_state = .EXEC) : s.Inv := by
  have hno : ∀ pc, s.pool.pc () = pc → pc = .scanning ∨ pc = .idle := by
    rintro pc rfl
    exact hpc
  refine ⟨?_, ?_, ?_, ?_, ?_, haway, hidling⟩
  · intro ft fiber f hholding
    rcases hno _ hholding with heq | heq <;> cases heq
  · intro ft fiber stage hon
    rcases hno _ hon with heq | heq <;> cases heq
  · intro ft fiber stage hon
    rcases hno _ hon with heq | heq <;> cases heq
  · intro c hc
    obtain ⟨hne, f, hf, hkept⟩ := hcb c hc
    exact ⟨hne, f, hf, .inr ⟨hkept.1, .inl hkept.2⟩⟩
  · obtain ⟨f, hf, hexec⟩ := hidle
    exact ⟨f, hf, fun hstate => .inr (hexec hstate)⟩

theorem Initial.inv (h : s.Initial) : s.Inv := by
  obtain ⟨hpc, hcb, ⟨cb, hidle⟩, hstage⟩ := h
  refine .of_off (.inl hpc) (fun c hc => ?_) ⟨_, hidle, fun hexec => by cases hexec⟩
    (fun hne => absurd hstage hne) (not_executing hstage)
  rw [hcb] at hc
  cases hc

/-! ## The steps -/

theorem pc_goto (p : Pool φ Unit) (pc : Pc φ Unit) : (p.goto () pc).pc () = pc := by
  unfold Pool.goto
  exact Function.update_self () pc p.pc

theorem cb_fiber_setCbFiber (p : Pool φ Unit) (o : Option Nat) :
    (p.setCbFiber () o).cb_fiber () = o := by
  unfold Pool.setCbFiber
  exact Function.update_self () o p.cb_fiber

theorem cb_fiber_dropCbFiber (p : Pool φ Unit) (task : Task φ Nat) :
    (p.dropCbFiber () task).cb_fiber () = if task.isCb then none else p.cb_fiber () := by
  cases task with
  | cb cb => exact cb_fiber_setCbFiber p none
  | fiber fiber => rfl

theorem heap_setFiber (p : Pool φ Unit) (g : Nat) (f : Fiber φ) :
    (p.setFiber g f).heap = Function.update p.heap g (some f) := rfl

/-- A fiber that the worker is not on keeps what is known of it. -/
theorem Inv.idle_ne (h : s.Inv) {ft : FiberAndThread φ Nat Unit} {g : Nat} {stage : Stage}
    (hpc : s.pool.pc () = .on ft g stage) (hne : s.idle_fiber ≠ g) :
    ∃ f, s.pool.heap s.idle_fiber = some f ∧ f.m_state ≠ .EXEC := by
  obtain ⟨f, hf, hexec⟩ := h.idle
  refine ⟨f, hf, fun hstate => ?_⟩
  rcases hexec hstate with ⟨ft', hpc'⟩ | haway
  · rw [hpc] at hpc'
    cases hpc'
    exact hne rfl
  · have hidle := h.away haway
    rw [hpc] at hidle
    cases hidle

theorem Inv.cb_ne (h : s.Inv) {ft : FiberAndThread φ Nat Unit} {g c : Nat} {stage : Stage}
    (hpc : s.pool.pc () = .on ft g stage) (hc : s.pool.cb_fiber () = some c) (hne : c ≠ g) :
    ∃ f, s.pool.heap c = some f ∧ f.m_cb = none ∧ Resettable f := by
  obtain ⟨-, f, hf, hcb⟩ := h.cb c hc
  rw [hpc] at hcb
  rcases hcb with ⟨ft', stage', heq, -⟩ | ⟨hnone, hreset | ⟨ft', heq⟩⟩
  · cases heq
    exact absurd rfl hne
  · exact ⟨f, hf, hnone, hreset⟩
  · cases heq
    exact absurd rfl hne

/-- The worker is on no fiber. -/
theorem Inv.idle_off (h : s.Inv) (hpc : ∀ ft g stage, s.pool.pc () ≠ .on ft g stage) :
    ∃ f, s.pool.heap s.idle_fiber = some f ∧ (f.m_state = .EXEC → s.stage ≠ .resting) := by
  obtain ⟨f, hf, hexec⟩ := h.idle
  refine ⟨f, hf, fun hstate => ?_⟩
  rcases hexec hstate with ⟨ft, heq⟩ | haway
  · exact absurd heq (hpc ft _ _)
  · exact haway

/-- The worker is not on the `cb_fiber`. -/
theorem Inv.kept (h : s.Inv) (hpc : ∀ ft g stage, s.pool.pc () ≠ .on ft g stage) {c : Nat}
    (hc : s.pool.cb_fiber () = some c) :
    ∃ f, s.pool.heap c = some f ∧ f.m_cb = none ∧ Resettable f := by
  obtain ⟨-, f, hf, hcb⟩ := h.cb c hc
  rcases hcb with ⟨ft, stage, heq, -⟩ | ⟨hnone, hreset | ⟨ft, heq⟩⟩
  · exact absurd heq (hpc ft c stage)
  · exact ⟨f, hf, hnone, hreset⟩
  · exact absurd heq (hpc ft c _)

/-- The worker goes on with its fiber. -/
theorem Inv.advance (h : s.Inv) {ft : FiberAndThread φ Nat Unit} {g : Nat} {stage stage' : Stage}
    (hpc : s.pool.pc () = .on ft g stage) {f f' : Fiber φ} (hf : s.pool.heap g = some f)
    {p : Pool φ Unit} (hheap : p.heap = Function.update s.pool.heap g (some f'))
    (hpc' : p.pc () = .on ft g stage') (hcb : p.cb_fiber = s.pool.cb_fiber)
    (hok : StageOk f stage → StageOk f' stage')
    (hkept : f.m_cb = none → StageOk f stage → Resettable f ∨ stage = .executing →
      f'.m_cb = none ∧ (Resettable f' ∨ stage' = .executing)) : Inv { s with pool := p } := by
  have hstage : StageOk f stage := by
    obtain ⟨f₀, hf₀, hok₀⟩ := h.on ft g stage hpc
    rw [hf] at hf₀
    cases hf₀
    exact hok₀
  have hrest : s.stage = .resting := h.resting hpc fun heq => by cases heq
  refine ⟨?_, ?_, ?_, ?_, ?_, ?_, ?_⟩
  · intro ft' fiber f' hholding
    rw [hpc'] at hholding
    cases hholding
  · intro ft' fiber stage₁ hon
    rw [hpc'] at hon
    cases hon
    exact ⟨f', by rw [hheap, Function.update_self], hok hstage⟩
  · intro ft' fiber stage₁ hon htask
    rw [hpc'] at hon
    cases hon
    rw [hcb]
    exact h.own ft g stage hpc htask
  · intro c hc
    rw [hcb] at hc
    refine ⟨(h.cb c hc).1, ?_⟩
    by_cases hcg : c = g
    · subst hcg
      refine ⟨f', by rw [hheap, Function.update_self], ?_⟩
      obtain ⟨-, f₀, hf₀, hown⟩ := h.cb c hc
      rw [hf] at hf₀
      cases hf₀
      rw [hpc'] at *
      rcases hown with ⟨ft', stage₁, heq, htask⟩ | ⟨hnone, hstate⟩
      · rw [hpc] at heq
        cases heq
        exact .inl ⟨ft, stage', rfl, htask⟩
      · have hbefore : Resettable f ∨ stage = .executing := by
          refine hstate.imp_right fun ⟨ft', heq⟩ => ?_
          rw [hpc] at heq
          cases heq
          rfl
        obtain ⟨hnone', hafter⟩ := hkept hnone hstage hbefore
        exact .inr ⟨hnone', hafter.imp_right fun heq => ⟨ft, by rw [heq]⟩⟩
    · obtain ⟨f₀, hf₀, hnone, hreset⟩ := h.cb_ne hpc hc hcg
      exact ⟨f₀, by rw [hheap, Function.update_of_ne hcg, hf₀], .inr ⟨hnone, .inl hreset⟩⟩
  · by_cases hidle : s.idle_fiber = g
    · refine ⟨f', by rw [hheap, hidle, Function.update_self], fun hexec => .inl ⟨ft, ?_⟩⟩
      have hexecuting : stage' = .executing := by
        by_contra hne
        exact (hok hstage).ne_exec hne hexec
      rw [hpc', hidle, hexecuting]
    · obtain ⟨f₀, hf₀, hne⟩ := h.idle_ne hpc hidle
      exact ⟨f₀, by rw [hheap, Function.update_of_ne hidle, hf₀], fun hexec => absurd hexec hne⟩
  · exact fun haway => absurd hrest haway
  · exact not_executing hrest

/-- The worker leaves its fiber. -/
theorem Inv.release (h : s.Inv) {ft : FiberAndThread φ Nat Unit} {g : Nat} {stage : Stage}
    (hpc : s.pool.pc () = .on ft g stage) {f' : Fiber φ} {p : Pool φ Unit}
    (hheap : p.heap = Function.update s.pool.heap g (some f')) (hpc' : p.pc () = .scanning)
    (hcb : ∀ c, p.cb_fiber () = some c → s.pool.cb_fiber () = some c) (hstate : f'.m_state ≠ .EXEC)
    (hkept : p.cb_fiber () = some g → f'.m_cb = none ∧ Resettable f') :
    Inv { s with pool := p } := by
  have hrest : s.stage = .resting := h.resting hpc fun heq => by cases heq
  refine .of_off (.inl hpc') (fun c hc => ⟨(h.cb c (hcb c hc)).1, ?_⟩) ?_
    (fun haway => absurd hrest haway) (not_executing hrest)
  · by_cases hcg : c = g
    · subst hcg
      exact ⟨f', by rw [hheap, Function.update_self], hkept hc⟩
    · obtain ⟨f₀, hf₀, hkept₀⟩ := h.cb_ne hpc (hcb c hc) hcg
      exact ⟨f₀, by rw [hheap, Function.update_of_ne hcg, hf₀], hkept₀⟩
  · by_cases hidle : s.idle_fiber = g
    · exact ⟨f', by rw [hheap, hidle, Function.update_self], fun hexec => absurd hexec hstate⟩
    · obtain ⟨f₀, hf₀, hne⟩ := h.idle_ne hpc hidle
      exact ⟨f₀, by rw [hheap, Function.update_of_ne hidle, hf₀], fun hexec => absurd hexec hne⟩

/-- What the worker's fiber is, when it is the `cb_fiber` though the entry is not a callback. -/
theorem Inv.kept_on (h : s.Inv) {ft : FiberAndThread φ Nat Unit} {g : Nat} {stage : Stage}
    (hpc : s.pool.pc () = .on ft g stage) (hstage : stage ≠ .executing)
    (htask : ft.task.isCb = false) {f : Fiber φ} (hf : s.pool.heap g = some f)
    (hc : s.pool.cb_fiber () = some g) : f.m_cb = none ∧ Resettable f := by
  obtain ⟨-, f₀, hf₀, hown⟩ := h.cb g hc
  rw [hf] at hf₀
  cases hf₀
  rw [hpc] at hown
  rcases hown with ⟨ft', stage', heq, hcb⟩ | ⟨hnone, hreset | ⟨ft', heq⟩⟩
  · cases heq
    rw [htask] at hcb
    cases hcb
  · exact ⟨hnone, hreset⟩
  · cases heq
    exact absurd rfl hstage

/-- The worker leaves a fiber that has not ended; `cb_fiber` is dropped. -/
theorem Inv.drop (h : s.Inv) {ft : FiberAndThread φ Nat Unit} {g : Nat} {stage : Stage}
    (hpc : s.pool.pc () = .on ft g stage) (hstage : stage ≠ .executing) {f f' : Fiber φ}
    (hf : s.pool.heap g = some f) (hno : ¬Resettable f) {p : Pool φ Unit}
    (hheap : p.heap = Function.update s.pool.heap g (some f'))
    (hcb : p.cb_fiber = s.pool.cb_fiber) (hstate : f'.m_state ≠ .EXEC) :
    Inv { s with pool := (p.dropCbFiber () ft.task).goto () .scanning } := by
  have hframe := (p.dropCbFiber_frame () ft.task).1
  have hdrop : ∀ c, (p.dropCbFiber () ft.task).cb_fiber () = some c →
      ft.task.isCb = false ∧ s.pool.cb_fiber () = some c := by
    intro c hc
    rw [cb_fiber_dropCbFiber, hcb] at hc
    cases htask : ft.task.isCb with
    | true =>
      rw [htask, if_pos rfl] at hc
      cases hc
    | false =>
      rw [htask, if_neg Bool.false_ne_true] at hc
      exact ⟨rfl, hc⟩
  refine h.release hpc (hframe.trans hheap) (pc_goto _ _) (fun c hc => (hdrop c hc).2) hstate ?_
  intro hc
  obtain ⟨htask, hkept⟩ := hdrop g hc
  exact absurd (h.kept_on hpc hstage htask hf hkept).2 hno

/-- Other code makes fibers and entries. -/
theorem Inv.grow (h : s.Inv) {p : Pool φ Unit} (hpc : p.pc = s.pool.pc)
    (hcb : p.cb_fiber = s.pool.cb_fiber)
    (hheap : ∀ g f, s.pool.heap g = some f → p.heap g = some f)
    (hnew : ∀ g f, p.heap g = some f → s.pool.heap g = some f ∨ f.m_state ≠ .EXEC) :
    Inv { s with pool := p } := by
  refine ⟨?_, ?_, ?_, ?_, ?_, ?_, ?_⟩
  · intro ft fiber f hholding htask hf
    rw [hpc] at hholding
    rcases hnew fiber f hf with hold | hne
    · exact h.held ft fiber f hholding htask hold
    · exact hne
  · intro ft fiber stage hon
    rw [hpc] at hon
    obtain ⟨f, hf, hok⟩ := h.on ft fiber stage hon
    exact ⟨f, hheap fiber f hf, hok⟩
  · intro ft fiber stage hon htask
    rw [hpc] at hon
    rw [hcb]
    exact h.own ft fiber stage hon htask
  · intro c hc
    rw [hcb] at hc
    obtain ⟨hne, f, hf, hown⟩ := h.cb c hc
    exact ⟨hne, f, hheap c f hf, hpc ▸ hown⟩
  · obtain ⟨f, hf, hexec⟩ := h.idle
    exact ⟨f, hheap _ f hf, hpc ▸ hexec⟩
  · intro haway
    rw [hpc]
    exact h.away haway
  · intro hexecuting
    obtain ⟨f, hf, hexec⟩ := h.idling hexecuting
    exact ⟨f, hheap _ f hf, hexec⟩

/-- The worker is on no fiber, before and after. -/
theorem Inv.between (h : s.Inv) {pc pc' : Pc φ Unit} (hpc : s.pool.pc () = pc)
    (hfrom : pc = .scanning ∨ ∃ ft, pc = .holding ft) {p : Pool φ Unit}
    (hheap : p.heap = s.pool.heap) (hcb : p.cb_fiber = s.pool.cb_fiber) (hpc' : p.pc () = pc')
    (hto : ∀ ft g stage, pc' ≠ .on ft g stage)
    (hheld : ∀ ft fiber f, pc' = .holding ft → ft.task = .fiber fiber →
      s.pool.heap fiber = some f → f.m_state ≠ .EXEC) : Inv { s with pool := p } := by
  have hon : ∀ ft g stage, s.pool.pc () ≠ .on ft g stage := by
    intro ft g stage heq
    rw [hpc] at heq
    rcases hfrom with rfl | ⟨ft', rfl⟩ <;> cases heq
  have hrest : s.stage = .resting := by
    refine h.resting hpc fun heq => ?_
    rcases hfrom with rfl | ⟨ft', rfl⟩ <;> cases heq
  refine ⟨?_, ?_, ?_, ?_, ?_, fun haway => absurd hrest haway, not_executing hrest⟩
  · intro ft fiber f hholding htask hf
    rw [hheap] at hf
    exact hheld ft fiber f (hpc'.symm.trans hholding) htask hf
  · intro ft fiber stage heq
    exact absurd (hpc'.symm.trans heq) (hto ft fiber stage)
  · intro ft fiber stage heq
    exact absurd (hpc'.symm.trans heq) (hto ft fiber stage)
  · intro c hc
    rw [hcb] at hc
    obtain ⟨f, hf, hnone, hreset⟩ := h.kept hon hc
    exact ⟨(h.cb c hc).1, f, by rw [hheap, hf], .inr ⟨hnone, .inl hreset⟩⟩
  · obtain ⟨f, hf, hexec⟩ := h.idle_off hon
    exact ⟨f, by rw [hheap, hf], fun hstate => .inr (hexec hstate)⟩

/-- `if(ft.fiber && ...)`. -/
theorem Inv.enterFiber (h : s.Inv) {ft : FiberAndThread φ Nat Unit}
    (hpc : s.pool.pc () = .holding ft) {g : Nat} (htask : ft.task = .fiber g) {f : Fiber φ}
    (hf : s.pool.heap g = some f) :
    Inv { s with pool := s.pool.goto () (.on ft g .entering) } := by
  have hon : ∀ ft' g' stage, s.pool.pc () ≠ .on ft' g' stage := by
    intro ft' g' stage heq
    rw [hpc] at heq
    cases heq
  have hpc' := pc_goto s.pool (.on ft g .entering)
  have hrest : s.stage = .resting := h.resting hpc fun heq => by cases heq
  refine ⟨?_, ?_, ?_, ?_, ?_, ?_, ?_⟩
  · intro ft' fiber f' hholding
    rw [hpc'] at hholding
    cases hholding
  · intro ft' fiber stage hpc''
    rw [hpc'] at hpc''
    cases hpc''
    exact ⟨f, hf, h.held ft g f hpc htask hf⟩
  · intro ft' fiber stage hpc'' hcb
    rw [hpc'] at hpc''
    cases hpc''
    rw [htask] at hcb
    cases hcb
  · intro c hc
    obtain ⟨f', hf', hnone, hreset⟩ := h.kept hon hc
    exact ⟨(h.cb c hc).1, f', hf', .inr ⟨hnone, .inl hreset⟩⟩
  · obtain ⟨f', hf', hexec⟩ := h.idle_off hon
    exact ⟨f', hf', fun hstate => .inr (hexec hstate)⟩
  · exact fun haway => absurd hrest haway
  · exact not_executing hrest

/-- `else if(ft.cb)`. -/
theorem Inv.enterCb (h : s.Inv) {ft : FiberAndThread φ Nat Unit}
    (hpc : s.pool.pc () = .holding ft) {g : Nat} (hg : g ≠ s.idle_fiber) {f' : Fiber φ}
    (hstate : f'.m_state = .INIT) {p : Pool φ Unit}
    (hheap : p.heap = Function.update s.pool.heap g (some f')) (hcb : p.cb_fiber () = some g)
    (hpc' : p.pc () = .on ft g .entering) (htask : ft.task.isCb = true) :
    Inv { s with pool := p } := by
  have hon : ∀ ft' g' stage, s.pool.pc () ≠ .on ft' g' stage := by
    intro ft' g' stage heq
    rw [hpc] at heq
    cases heq
  have hrest : s.stage = .resting := h.resting hpc fun heq => by cases heq
  refine ⟨?_, ?_, ?_, ?_, ?_, ?_, ?_⟩
  · intro ft' fiber f' hholding
    rw [hpc'] at hholding
    cases hholding
  · intro ft' fiber stage hpc''
    rw [hpc'] at hpc''
    cases hpc''
    refine ⟨f', by rw [hheap, Function.update_self], fun hexec => ?_⟩
    rw [hstate] at hexec
    cases hexec
  · intro ft' fiber stage hpc'' _
    rw [hpc'] at hpc''
    cases hpc''
    exact hcb
  · intro c hc
    rw [hcb] at hc
    cases hc
    exact ⟨hg, f', by rw [hheap, Function.update_self], .inl ⟨ft, .entering, hpc', htask⟩⟩
  · obtain ⟨f₀, hf₀, hexec⟩ := h.idle_off hon
    have hf₁ : p.heap s.idle_fiber = some f₀ := by
      rw [hheap, Function.update_of_ne (Ne.symm hg), hf₀]
    exact ⟨f₀, hf₁, fun hstate' => .inr (hexec hstate')⟩
  · exact fun haway => absurd hrest haway
  · exact not_executing hrest

/-- The branch of the idle fiber. -/
theorem Inv.idleStep (h : s.Inv) (hpc : s.pool.pc () = .idle) {f' : Fiber φ} {stage : IdleStage}
    (hstate : f'.m_state = .EXEC → stage ≠ .resting)
    (hexecutes : stage = .executing → f'.m_state = .EXEC) {p : Pool φ Unit}
    (hheap : p.heap = Function.update s.pool.heap s.idle_fiber (some f'))
    (hcb : p.cb_fiber = s.pool.cb_fiber)
    (hpc' : p.pc () = .idle ∨ p.pc () = .scanning ∧ stage = .resting) (n : Int) :
    Inv ⟨p, s.idle_fiber, stage, n⟩ := by
  have hon : ∀ ft g stage, s.pool.pc () ≠ .on ft g stage := by
    intro ft g stage heq
    rw [hpc] at heq
    cases heq
  have hidle : p.heap s.idle_fiber = some f' := by
    rw [hheap, Function.update_self]
  refine .of_off (hpc'.symm.imp_left And.left) (fun c hc => ?_) ⟨f', hidle, hstate⟩ ?_
    fun hexecuting => ⟨f', hidle, hexecutes hexecuting⟩
  · change p.cb_fiber () = some c at hc
    rw [hcb] at hc
    obtain ⟨f, hf, hkept⟩ := h.kept hon hc
    have hne := (h.cb c hc).1
    refine ⟨hne, f, ?_, hkept⟩
    show p.heap c = some f
    rw [hheap, Function.update_of_ne hne, hf]
  · exact fun haway => hpc'.elim id fun hscan => absurd hscan.2 haway

theorem exec_eq_false {p : Pool φ Unit} {g : Nat} {f : Fiber φ} (h : p.exec g = false)
    (hf : p.heap g = some f) : f.m_state ≠ .EXEC := by
  intro hexec
  rw [Pool.exec, hf, Option.any_some, hexec] at h
  cases h

/-- **Step lemma.** -/
theorem Inv.pool (h : s.Inv) {l : Move φ Unit} {p : Pool φ Unit} (hstep : Pool.Step s.pool l p)
    (hwake : l ≠ .wake ()) (hcalls : s.pool.Calls l) : Inv { s with pool := p } := by
  cases hstep with
  | @make fiber hnew cb =>
    refine h.grow rfl rfl (fun g f hf => ?_) fun g f hf => ?_
    · have hne : g ≠ fiber := by
        rintro rfl
        rw [hnew] at hf
        cases hf
      exact (Function.update_of_ne hne _ _).trans hf
    · by_cases hg : g = fiber
      · rw [heap_setFiber, hg, Function.update_self] at hf
        cases hf
        exact .inr fun hexec => by cases hexec
      · exact .inl ((Function.update_of_ne hg _ _).symm.trans hf)
  | schedule ft => exact h.grow rfl rfl (fun _ _ hf => hf) fun _ _ hf => .inl hf
  | @take i hpc ft hft =>
    refine h.between hpc (.inl rfl) rfl rfl (pc_goto _ _) (fun _ _ _ heq => by cases heq) ?_
    intro ft' fiber f heq htask hf
    cases heq
    obtain ⟨-, -, -, -, hexec, -⟩ := scan_some hft
    rw [htask] at hexec
    exact exec_eq_false hexec hf
  | @pass i hpc hft =>
    exact h.between hpc (.inl rfl) rfl rfl (pc_goto _ _) (fun _ _ _ heq => by cases heq)
      fun _ _ _ heq => by cases heq
  | @chooseFiber i ft hpc fiber htask f hf hstate => exact h.enterFiber hpc htask hf
  | @discard i ft hpc fiber htask f hf hstate =>
    exact h.between hpc (.inr ⟨ft, rfl⟩) rfl rfl (pc_goto _ _) (fun _ _ _ heq => by cases heq)
      fun _ _ _ heq => by cases heq
  | @reuse i ft hpc cb htask fiber hcb f f' hf hreset =>
    obtain ⟨-, rfl⟩ := Fiber.reset_eq_some.mp hreset
    exact h.enterCb hpc (h.cb fiber hcb).1 rfl rfl hcb (pc_goto _ _) (by rw [htask]; rfl)
  | @fresh i ft hpc cb htask hcb fiber hnew =>
    have hne : fiber ≠ s.idle_fiber := by
      rintro rfl
      obtain ⟨f, hf, -⟩ := h.idle
      rw [hnew] at hf
      cases hf
    exact h.enterCb hpc hne rfl rfl (cb_fiber_setCbFiber (s.pool.setFiber fiber (.make cb)) _)
      (pc_goto _ _) (by rw [htask]; rfl)
  | @swapIn i ft fiber hpc f f' hf hswap =>
    obtain ⟨-, rfl⟩ := Fiber.swapIn_eq_some.mp hswap
    exact h.advance hpc hf rfl (pc_goto _ _) rfl (fun _ => rfl) fun hnone _ _ =>
      ⟨hnone, .inr rfl⟩
  | @yield i ft fiber hpc f hf ready =>
    have hno : f.m_cb ≠ none := hcalls ft fiber f hpc hf
    refine h.advance hpc hf rfl (pc_goto _ _) rfl (fun _ => ?_) fun hnone => absurd hnone hno
    unfold Fiber.yield
    cases ready <;> exact ⟨FiberState.noConfusion, FiberState.noConfusion⟩
  | @finish i ft fiber hpc f hf thrown =>
    refine h.advance hpc hf rfl (pc_goto _ _) rfl (fun _ => ?_) fun hnone _ _ => ?_
    · unfold Fiber.finish
      cases thrown <;> exact ⟨FiberState.noConfusion, FiberState.noConfusion⟩
    · cases thrown with
      | true => exact ⟨hnone, .inl (.inr (.inl rfl))⟩
      | false => exact absurd hnone (hcalls ft fiber f hpc hf)
  | @swapOut i ft fiber hpc f hf =>
    exact h.advance hpc hf rfl (pc_goto _ _) rfl id fun hnone _ hreset =>
      ⟨hnone, hreset.imp_right fun heq => by cases heq⟩
  | @decrement i ft fiber hpc =>
    obtain ⟨f, hf, -⟩ := h.on ft fiber _ hpc
    exact h.advance hpc hf (by rw [← hf, Function.update_eq_self]; rfl) (pc_goto _ _) rfl id
      fun hnone _ hreset => ⟨hnone, hreset.imp_right fun heq => by cases heq⟩
  | @ready i ft fiber hpc f hf hstate =>
    refine h.advance hpc hf (by rw [← hf, Function.update_eq_self]; rfl) (pc_goto _ _) rfl
      (fun _ => hstate) fun hnone _ hreset => ⟨hnone, hreset.imp_right fun heq => by cases heq⟩
  | @endFiber i ft fiber hpc f hf hstate htask =>
    have hcb : ft.task.isCb = false := by rw [htask]; rfl
    refine h.release hpc (by rw [← hf, Function.update_eq_self]; rfl) (pc_goto _ _)
      (fun _ hc => hc) (fun hexec => ?_) fun hc => ?_
    · rw [hexec] at hstate
      cases hstate
    · exact h.kept_on hpc Stage.noConfusion hcb hf hc
  | @endCb i ft fiber hpc f f' hf hstate cb htask hreset =>
    obtain ⟨-, rfl⟩ := Fiber.reset_eq_some.mp hreset
    exact h.release hpc rfl (pc_goto _ _) (fun _ hc => hc) FiberState.noConfusion fun _ =>
      ⟨rfl, .inr (.inr rfl)⟩
  | @hold i ft fiber hpc f hf hready hstate =>
    refine h.advance hpc hf (by rw [← hf, Function.update_eq_self]; rfl) (pc_goto _ _) rfl
      (fun hok => ?_) fun hnone _ hreset => ⟨hnone, hreset.imp_right fun heq => by cases heq⟩
    obtain ⟨hexec, hinit⟩ := hok
    unfold StageOk
    revert hexec hinit hready hstate
    cases f.m_state <;> simp [FiberState.ended]
  | @requeue i ft fiber hpc =>
    obtain ⟨f, hf, hready⟩ := h.on ft fiber _ hpc
    change f.m_state = .READY at hready
    have hheap : s.pool.heap = Function.update s.pool.heap fiber (some f) := by
      rw [← hf, Function.update_eq_self]
    refine h.drop hpc Stage.noConfusion hf ?_ hheap rfl ?_
    · rw [Resettable, hready]
      simp
    · rw [hready]
      exact FiberState.noConfusion
  | @settle i ft fiber hpc f hf =>
    obtain ⟨f₀, hf₀, hhold⟩ := h.on ft fiber _ hpc
    rw [hf] at hf₀
    cases hf₀
    change f.m_state = .HOLD at hhold
    refine h.drop hpc Stage.noConfusion hf ?_ (heap_setFiber _ _ _) rfl FiberState.noConfusion
    rw [Resettable, hhold]
    simp
  | @wake i hpc => exact absurd rfl hwake

theorem settled_ne_exec (f : Fiber φ) : (settled f).m_state ≠ .EXEC := by
  unfold settled
  split
  · intro hexec
    rename_i hended
    rw [hexec] at hended
    cases hended
  · exact FiberState.noConfusion

/-- **Step lemma.** -/
theorem Inv.step (h : s.Inv) {l : LoopMove φ} (hstep : Step s l t) : t.Inv := by
  cases hstep with
  | move hstep hwake hcalls => exact h.pool hstep hwake hcalls
  | @stop hpc hstage f hf hterm =>
    have hheap : s.pool.heap = Function.update s.pool.heap s.idle_fiber (some f) := by
      rw [← hf, Function.update_eq_self]
    exact h.idleStep hpc (fun _ => IdleStage.noConfusion) IdleStage.noConfusion hheap rfl
      (.inl hpc) _
  | @swapIn hpc hstage f f' hf hterm hswap =>
    refine h.idleStep hpc (fun _ => ?_) (fun _ => ?_) (heap_setFiber s.pool s.idle_fiber f') rfl
      (.inl hpc) _
    · split <;> exact IdleStage.noConfusion
    · rw [(Fiber.swapIn_eq_some.mp hswap).2]
  | @yield hstage f hf ready =>
    have hpc := h.away (by rw [hstage]; exact IdleStage.noConfusion)
    exact h.idleStep hpc (fun _ => IdleStage.noConfusion) IdleStage.noConfusion
      (heap_setFiber s.pool s.idle_fiber (f.yield ready).swapOut) rfl (.inl hpc) _
  | @swapOut hstage f hf =>
    have hpc := h.away (by rw [hstage]; exact IdleStage.noConfusion)
    exact h.idleStep hpc (fun _ => IdleStage.noConfusion) IdleStage.noConfusion
      (heap_setFiber s.pool s.idle_fiber f.swapOut) rfl (.inl hpc) _
  | @finish hstage f hf thrown =>
    have hpc := h.away (by rw [hstage]; exact IdleStage.noConfusion)
    exact h.idleStep hpc (fun _ => IdleStage.noConfusion) IdleStage.noConfusion
      (heap_setFiber s.pool s.idle_fiber (f.finish thrown).swapOut) rfl (.inl hpc) _
  | @settle hstage f hf =>
    have hpc := h.away (by rw [hstage]; exact IdleStage.noConfusion)
    have hheap : ((s.pool.setFiber s.idle_fiber (settled f)).goto () .scanning).heap =
        Function.update s.pool.heap s.idle_fiber (some (settled f)) := rfl
    exact h.idleStep hpc (fun hexec => absurd hexec (settled_ne_exec f)) IdleStage.noConfusion
      hheap rfl (.inr ⟨pc_goto _ _, rfl⟩) _

/-! ## The assertions -/

theorem Inv.resets (h : s.Inv) {l : LoopMove φ} {g : Nat} (hl : s.resets l = some g) :
    ∃ f, s.pool.heap g = some f ∧ Resettable f := by
  cases l with
  | move l =>
    change s.pool.resets l = some g at hl
    cases l with
    | choose i fiber =>
      unfold Pool.resets at hl
      dsimp only at hl
      split at hl
      · rename_i ft hpc
        split at hl
        · obtain ⟨f, hf, -, hreset⟩ := h.kept (fun ft' g' stage heq => by
            rw [hpc] at heq
            cases heq) ‹ft.task.isCb = true ∧ _›.2
          cases hl
          exact ⟨f, hf, hreset⟩
        · cases hl
      · cases hl
    | decide i =>
      unfold Pool.resets at hl
      dsimp only at hl
      split at hl
      · rename_i ft fiber hpc
        split at hl
        · cases hl
          obtain ⟨f, hf, hended⟩ := Option.any_eq_true _ _ |>.mp ‹ft.task.isCb = true ∧ _›.2
          refine ⟨f, hf, ?_⟩
          unfold Resettable
          revert hended
          cases f.m_state <;> simp [FiberState.ended]
        · cases hl
      · cases hl
    | _ => cases hl
  | _ => cases hl

theorem Inv.swapsIn (h : s.Inv) {l : LoopMove φ} {g : Nat} (hl : s.swapsIn l = some g) :
    ∃ f, s.pool.heap g = some f ∧ f.m_state ≠ .EXEC := by
  cases l with
  | move l =>
    change s.pool.swapsIn l = some g at hl
    cases l with
    | swapIn i =>
      unfold Pool.swapsIn at hl
      dsimp only at hl
      split at hl
      · cases hl
        exact h.on _ _ _ ‹_›
      · cases hl
    | _ => cases hl
  | swapIn =>
    unfold Loop.swapsIn at hl
    dsimp only at hl
    split at hl
    · rename_i f hpc hstage hf
      split at hl
      · cases hl
      · cases hl
        refine ⟨f, hf, fun hexec => ?_⟩
        obtain ⟨f', hf', haway⟩ := h.idle_off fun ft g stage heq => by
          rw [hpc] at heq
          cases heq
        rw [hf] at hf'
        cases hf'
        exact haway hexec hstage
    · cases hl
  | _ => cases hl

/-- One fiber has changed, and not in its callback. -/
theorem cb_update {heap : Nat → Option (Fiber φ)} {g g' : Nat} {f f₀ f' : Fiber φ}
    (hf : heap g = some f) (hf₀ : heap g' = some f₀) (hcb : f₀ = f → f'.m_cb = f₀.m_cb) :
    ∃ f₁, Function.update heap g' (some f') g = some f₁ ∧ f₁.m_cb = f.m_cb := by
  by_cases hg : g = g'
  · subst hg
    rw [hf] at hf₀
    cases hf₀
    exact ⟨f', Function.update_self .., hcb rfl⟩
  · exact ⟨f, (Function.update_of_ne hg _ _).trans hf, rfl⟩

theorem cb_new {heap : Nat → Option (Fiber φ)} {g g' : Nat} {f f' : Fiber φ}
    (hf : heap g = some f) (hnew : heap g' = none) :
    ∃ f₁, Function.update heap g' (some f') g = some f₁ ∧ f₁.m_cb = f.m_cb := by
  have hg : g ≠ g' := by
    rintro rfl
    rw [hf] at hnew
    cases hnew
  exact ⟨f, (Function.update_of_ne hg _ _).trans hf, rfl⟩

def Suspended (f : Fiber φ) : Prop := f.m_state = .HOLD ∨ f.m_state = .READY

theorem Suspended.not_resettable {f : Fiber φ} (h : Suspended f) : ¬Resettable f := by
  unfold Suspended Resettable at *
  revert h
  cases f.m_state <;> simp

theorem Suspended.ne_exec {f : Fiber φ} (h : Suspended f) : f.m_state ≠ .EXEC := by
  unfold Suspended at h
  revert h
  cases f.m_state <;> simp

/-- A fiber that is suspended keeps its callback. -/
theorem Inv.suspended_pool (h : s.Inv) {l : Move φ Unit} {p : Pool φ Unit}
    (hstep : Pool.Step s.pool l p) {g : Nat} {f : Fiber φ} (hf : s.pool.heap g = some f)
    (hsuspended : Suspended f) : ∃ f', p.heap g = some f' ∧ f'.m_cb = f.m_cb := by
  have hsame : ∃ f', s.pool.heap g = some f' ∧ f'.m_cb = f.m_cb := ⟨f, hf, rfl⟩
  cases hstep with
  | make hnew cb => exact cb_new hf hnew
  | schedule | take | pass | chooseFiber | discard | decrement | ready | endFiber | hold | wake =>
    exact hsame
  | reuse hpc htask hcb hf₀ hreset =>
    exact cb_update hf hf₀ fun heq => absurd (Fiber.reset_eq_some.mp hreset).1
      (heq ▸ hsuspended.not_resettable)
  | fresh hpc htask hcb hnew => exact cb_new hf hnew
  | swapIn hpc hf₀ hswap =>
    obtain ⟨-, rfl⟩ := Fiber.swapIn_eq_some.mp hswap
    exact cb_update hf hf₀ fun _ => rfl
  | yield hpc hf₀ ready => exact cb_update hf hf₀ fun _ => rfl
  | @finish i ft fiber hpc f₀ hf₀ thrown =>
    obtain ⟨f₁, hf₁, hexec⟩ := h.on ft fiber _ hpc
    rw [hf₀] at hf₁
    cases hf₁
    exact cb_update hf hf₀ fun heq => absurd hexec (heq ▸ hsuspended.ne_exec)
  | swapOut hpc hf₀ => exact cb_update hf hf₀ fun _ => rfl
  | endCb hpc hf₀ hstate htask hreset =>
    exact cb_update hf hf₀ fun heq => absurd (Fiber.reset_eq_some.mp hreset).1
      (heq ▸ hsuspended.not_resettable)
  | @requeue i ft fiber hpc =>
    have hframe := (Pool.dropCbFiber_frame (s.pool.push ⟨.fiber fiber, none⟩) i ft.task).1
    show ∃ f', (Pool.dropCbFiber _ i ft.task).heap g = some f' ∧ f'.m_cb = f.m_cb
    rw [hframe]
    exact hsame
  | @settle i ft fiber hpc f₀ hf₀ =>
    have hframe := (Pool.dropCbFiber_frame (s.pool.setFiber fiber { f₀ with m_state := .HOLD }) i
      ft.task).1
    show ∃ f', (Pool.dropCbFiber _ i ft.task).heap g = some f' ∧ f'.m_cb = f.m_cb
    rw [hframe]
    exact cb_update hf hf₀ fun _ => rfl

theorem settled_m_cb (f : Fiber φ) : (settled f).m_cb = f.m_cb := by
  unfold settled
  split <;> rfl

theorem Inv.suspended (h : s.Inv) {l : LoopMove φ} (hstep : Step s l t) {g : Nat} {f : Fiber φ}
    (hf : s.pool.heap g = some f) (hsuspended : Suspended f) :
    ∃ f', t.pool.heap g = some f' ∧ f'.m_cb = f.m_cb := by
  cases hstep with
  | move hstep hwake hcalls => exact h.suspended_pool hstep hf hsuspended
  | stop => exact ⟨f, hf, rfl⟩
  | swapIn hpc hstage hf₀ hterm hswap =>
    obtain ⟨-, rfl⟩ := Fiber.swapIn_eq_some.mp hswap
    exact cb_update hf hf₀ fun _ => rfl
  | yield hstage hf₀ ready => exact cb_update hf hf₀ fun _ => rfl
  | swapOut hstage hf₀ => exact cb_update hf hf₀ fun _ => rfl
  | finish hstage hf₀ thrown =>
    obtain ⟨f₁, hf₁, hexec⟩ := h.idling hstage
    rw [hf₀] at hf₁
    cases hf₁
    exact cb_update hf hf₀ fun heq => absurd hexec (heq ▸ hsuspended.ne_exec)
  | settle hstage hf₀ => exact cb_update hf hf₀ fun _ => settled_m_cb _

/-- **One loop.** In every state of a run, a step that calls `Fiber::reset` finds the fiber in
`INIT`, `TERM` or `EXCEPT`, and one that calls `Fiber::swapIn` does not find it in `EXEC`; a fiber
in `HOLD` or `READY` is not reset and keeps its callback. -/
theorem assertions_hold {ls : List (LoopMove φ)} (hs : s.Initial) (hrun : Run Step s ls t)
    (l : LoopMove φ) :
    (∀ g, t.resets l = some g → ∃ f, t.pool.heap g = some f ∧ Resettable f) ∧
    (∀ g, t.swapsIn l = some g → ∃ f, t.pool.heap g = some f ∧ f.m_state ≠ .EXEC) ∧
    ∀ g f, t.pool.heap g = some f → Suspended f → t.resets l ≠ some g ∧
      ∀ u, Step t l u → ∃ f', u.pool.heap g = some f' ∧ f'.m_cb = f.m_cb := by
  have hinv : t.Inv := hrun.invariant (I := Inv) (fun _ _ _ hs hstep => hs.step hstep) hs.inv
  refine ⟨fun g => hinv.resets, fun g => hinv.swapsIn, fun g f hf hsuspended => ⟨fun hreset => ?_,
    fun u hstep => hinv.suspended hstep hf hsuspended⟩⟩
  obtain ⟨f', hf', hresettable⟩ := hinv.resets hreset
  rw [hf] at hf'
  cases hf'
  exact hsuspended.not_resettable hresettable

/-- Two callbacks are queued. -/
def startLoop : Loop Nat where
  pool := { m_fibers := [⟨.cb 1, none⟩, ⟨.cb 2, none⟩], m_activeThreadCount := 0,
            heap := fun g => if g = 0 then some (.make 0) else none, pc := fun _ => .scanning,
            cb_fiber := fun _ => none }
  idle_fiber := 0
  stage := .resting
  m_idleThreadCount := 0

theorem initial_startLoop : startLoop.Initial := ⟨rfl, rfl, ⟨0, rfl⟩, rfl⟩

/-- The first callback throws, and its fiber is taken for the second. -/
theorem run_startLoop : ∃ t : Loop Nat, Run Step startLoop (List.map LoopMove.move
    [.scan (), .choose () 1, .swapIn (), .finish () true, .swapOut (), .decrement (), .decide (),
      .scan ()]) t ∧ t.resets (.move (.choose () 1)) = some 1 := by
  refine ⟨?_, ?_, ?_⟩
  rotate_left 1
  · refine .cons (.move (.take rfl rfl) nofun trivial) ?_
    refine .cons (.move (.fresh rfl rfl rfl rfl) nofun trivial) ?_
    refine .cons (.move (.swapIn rfl rfl rfl) nofun trivial) ?_
    refine .cons (.move (.finish rfl rfl true) nofun trivial) ?_
    refine .cons (.move (.swapOut rfl rfl) nofun trivial) ?_
    refine .cons (.move (.decrement rfl) nofun trivial) ?_
    refine .cons (.move (.endCb rfl rfl rfl rfl rfl) nofun trivial) ?_
    refine .cons (.move (.take rfl rfl) nofun trivial) ?_
    exact .nil _
  · rfl

theorem assertions_hold_startLoop : ∃ t : Loop Nat, ∃ f, t.pool.heap 1 = some f ∧ Resettable f ∧
    t.resets (.move (.choose () 1)) = some 1 := by
  obtain ⟨t, hrun, hreset⟩ := run_startLoop
  obtain ⟨f, hf, hresettable⟩ := (assertions_hold initial_startLoop hrun _).1 1 hreset
  exact ⟨t, f, hf, hresettable, hreset⟩

end Loop

end Captain.Scheduler
