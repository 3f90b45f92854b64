import Captain.Scheduler.FiberLife

/-!
# No fiber runs on two workers

* `exclusive_of_settled`: if no scan takes a fiber that another worker has not finished with, then
  no fiber is executed by two workers, each fiber that is swapped in has its context saved, and no
  worker writes the state of a fiber that another one executes.
* `not_exclusive_of_unsettled`: from the first scan that does, a run comes to a state in which this
  is false.
-/

namespace Captain.Scheduler

open Transition

variable {φ ι : Type}

/-- The fiber on whose stack the worker is. -/
def Pc.runs : Pc φ ι → Option Nat
  | .on _ fiber .executing | .on _ fiber .leaving => some fiber
  | _ => none

namespace Pool

/-- No fiber is executed by two workers; a fiber that is to be swapped in has its context saved;
and no worker is to write the state of a fiber that another one executes, neither `HOLD` nor by
a reset of its `cb_fiber`. -/
structure Exclusive (s : Pool φ ι) : Prop where
  one : ∀ i j fiber, (s.pc i).runs = some fiber → (s.pc j).runs = some fiber → i = j
  saved : ∀ i ft fiber, s.pc i = .on ft fiber .entering →
    ∃ f, s.heap fiber = some f ∧ f.saved = true
  hold : ∀ i j ft fiber, s.pc i = .on ft fiber .settling → (s.pc j).runs ≠ some fiber
  reset : ∀ i j fiber, s.cb_fiber i = some fiber → (s.pc j).runs = some fiber → i = j

theorem spot_of_runs {pc : Pc φ ι} {fiber : Nat} (h : pc.runs = some fiber) : ∃ own stage,
    pc.spot fiber = some (.at own stage) ∧ (stage = .executing ∨ stage = .leaving) := by
  unfold Pc.runs at h
  split at h <;> cases h
  · exact ⟨_, _, if_pos rfl, .inl rfl⟩
  · exact ⟨_, _, if_pos rfl, .inr rfl⟩

theorem exclusive_of_fiberOk {s : Pool φ ι} (h : ∀ fiber, FiberOk s fiber) : Exclusive s := by
  have hsame : ∀ {i j : ι} {fiber : Nat} {spot spot' : Spot}, (s.pc i).spot fiber = some spot →
      (s.pc j).spot fiber = some spot' → i = j := by
    intro i j fiber spot spot' hi hj
    obtain ⟨-, -, -, hother, -⟩ := (h fiber).of_spot hi
    apply Classical.byContradiction
    intro hne
    rw [hother j (Ne.symm hne)] at hj
    cases hj
  refine ⟨?_, ?_, ?_, ?_⟩
  · intro i j fiber hi hj
    obtain ⟨_, _, hi, -⟩ := spot_of_runs hi
    obtain ⟨_, _, hj, -⟩ := spot_of_runs hj
    exact hsame hi hj
  · intro i ft fiber hpc
    obtain ⟨f, hobj, hok, -⟩ := (h fiber).of_spot (spot_on hpc)
    exact ⟨f, hobj, hok.1⟩
  · intro i j ft fiber hpc hj
    obtain ⟨own, stage, hspot, hstage⟩ := spot_of_runs hj
    obtain rfl := hsame (spot_on hpc) hspot
    rw [spot_on hpc] at hspot
    cases hspot
    rcases hstage with hstage | hstage <;> cases hstage
  · intro i j fiber hcb hj
    obtain ⟨own, stage, hspot, -⟩ := spot_of_runs hj
    obtain ⟨-, -, -, -, hown⟩ := (h fiber).of_spot hspot
    exact ((hown i).mp hcb).1

/-- If in a run no scan takes a fiber that another worker has not finished with, no fiber is
executed by two workers in any state of the run. -/
theorem exclusive_of_settled [DecidableEq ι] (ls : List (Move φ ι)) {s : Pool φ ι}
    (h : Run (Guard (fun u l => OneEntry u l ∧ Settled u l) Step) init ls s) : Exclusive s :=
  exclusive_of_fiberOk (fiberOk_of_settled ls h)

/-! ## A scan that comes too early -/

section

variable [DecidableEq ι] {s : Pool φ ι} {i j : ι} {ft ft' : FiberAndThread φ Nat ι} {g : Nat}
  {f : Fiber φ}

omit [DecidableEq ι] in
theorem on_of_unsettled (h : (s.pc j).unsettled = some g) :
    ∃ ft stage, s.pc j = .on ft g stage := by
  unfold Pc.unsettled at h
  split at h <;> cases h
  all_goals exact ⟨_, _, by assumption⟩

theorem queued_of_scan (hft : (s.scan i).ft = some ft) (htask : ft.task = .fiber g) :
    0 < s.queued g := by
  obtain ⟨l, r, hq, -⟩ := scan_some hft
  rw [queued, hq]
  exact List.countP_pos_iff.mpr ⟨ft, by simp, by simp [htask, Task.isFiber]⟩

omit [DecidableEq ι] in
theorem hold_of_unsettled (h : FiberOk s g) (hj : (s.pc j).unsettled = some g)
    (hq : 0 < s.queued g) : ∃ f, s.heap g = some f ∧ f.m_state = .HOLD := by
  have hyielded : ∀ f : Fiber φ, Yielded f (s.queued g) → f.m_state = .HOLD := fun f hf =>
    hf.elim (fun hy => hy.1) fun hy => absurd hy.2 (Nat.ne_of_gt hq)
  obtain ⟨ft, stage, hpc⟩ := on_of_unsettled hj
  obtain ⟨f, hobj, hok, -⟩ := h.of_spot (spot_on hpc)
  refine ⟨f, hobj, ?_⟩
  rw [hpc] at hj
  cases stage with
  | entering | executing | requeueing => cases hj
  | leaving => exact hyielded f hok
  | returned | deciding => exact hyielded f hok.2
  | settling => exact hok.2.1

/-- A worker that goes on after a fiber which another one executes comes to write its state. -/
theorem not_exclusive_of_executing {stage : Stage} (hij : i ≠ j)
    (hi : s.pc i = .on ft g .executing) (hj : s.pc j = .on ft' g stage)
    (hf : s.heap g = some f) (hexec : f.m_state = .EXEC)
    (hstage : (Pc.on ft' g stage : Pc φ ι).unsettled = some g) :
    ∃ ls s', Run (Guard OneEntry Step) s ls s' ∧ ¬Exclusive s' := by
  have hgoto : ∀ (u : Pool φ ι) (stage : Stage), u.pc = s.pc →
      (u.goto j (.on ft' g stage)).pc i = .on ft g .executing ∧
        (u.goto j (.on ft' g stage)).pc j = .on ft' g stage := fun u stage hu =>
    ⟨(Function.update_of_ne hij _ _).trans (by rw [hu, hi]), Function.update_self ..⟩
  have hruns : (Pc.on ft g .executing : Pc φ ι).runs = some g := rfl
  have hold : ∀ u : Pool φ ι, u.pc i = .on ft g .executing → u.pc j = .on ft' g .settling →
      ¬Exclusive u := fun u hui huj hex => hex.hold j i ft' g huj (by rw [hui, hruns])
  have hdecide : ∀ u : Pool φ ι, u.heap = s.heap → u.pc j = .on ft' g .deciding →
      Step u (.decide j) (u.goto j (.on ft' g .settling)) := fun u hheap huj =>
    .hold huj (by rw [hheap, hf]) (by simp [hexec]) (by rw [hexec]; rfl)
  cases stage with
  | entering | executing | requeueing => cases hstage
  | leaving =>
    refine ⟨[], s, .nil s, fun hex => hij (hex.one i j g ?_ ?_)⟩
    · rw [hi, hruns]
    · rw [hj]
      rfl
  | settling => exact ⟨[], s, .nil s, hold s hi hj⟩
  | deciding =>
    obtain ⟨hi', hj'⟩ := hgoto s .settling rfl
    exact ⟨[.decide j], _, .cons ⟨trivial, hdecide s rfl hj⟩ (.nil _), hold _ hi' hj'⟩
  | returned =>
    obtain ⟨hi', hj'⟩ := hgoto (s.countActive (-1)) .deciding rfl
    refine ⟨[.decrement j, .decide j], _,
      .cons ⟨trivial, .decrement hj⟩ (.cons ⟨trivial, hdecide _ rfl hj'⟩ (.nil _)),
      hold _ ?_ (Function.update_self ..)⟩
    exact (Function.update_of_ne hij _ _).trans hi'

/-- From a scan that takes a fiber too early, the fiber may come to two workers. -/
theorem not_exclusive_of_unsettled (ls : List (Move φ ι)) {s' : Pool φ ι} {l : Move φ ι}
    (h : Run (Guard (fun u l => OneEntry u l ∧ Settled u l) Step) init ls s)
    (hstep : Step s l s') (hset : ¬Settled s l) :
    ∃ ls' s'', Run (Guard OneEntry Step) s' ls' s'' ∧ ¬Exclusive s'' := by
  have hok := fiberOk_of_settled ls h
  cases hstep with
  | pass hpc hft =>
    refine absurd ?_ hset
    intro ft fiber hft'
    rw [hft] at hft'
    cases hft'
  | @take i hpc ft hft =>
    simp only [Settled, not_forall, not_not] at hset
    obtain ⟨ft₀, g, hft₀, htask, j, hj⟩ := hset
    rw [hft] at hft₀
    cases hft₀
    obtain ⟨f, hobj, hhold⟩ := hold_of_unsettled (hok g) hj (queued_of_scan hft htask)
    obtain ⟨ft', stage, hpcj⟩ := on_of_unsettled hj
    have hij : i ≠ j := by
      rintro rfl
      rw [hpc] at hpcj
      cases hpcj
    rw [hpcj] at hj
    have hgo : ∀ (u : Pool φ ι) (pc : Pc φ ι), (u.goto i pc).pc j = u.pc j := fun u pc =>
      Function.update_of_ne (Ne.symm hij) _ _
    let u := ({ s with m_fibers := (s.scan i).m_fibers }.countActive 1).goto i (.holding ft)
    let v := u.goto i (.on ft g .entering)
    have hchoose : Step u (.choose i g) v :=
      .chooseFiber (Function.update_self ..) htask hobj (by rw [hhold]; rfl)
    have hswap : Step v (.swapIn i) _ :=
      .swapIn (Function.update_self ..) hobj (if_pos (by simp [hhold]))
    obtain ⟨ls', s'', hrun, hnot⟩ := not_exclusive_of_executing
      (s := (v.setFiber g { f with m_state := .EXEC, saved := false }).goto i (.on ft g .executing))
      hij (Function.update_self ..) ((hgo _ _).trans ((hgo _ _).trans ((hgo _ _).trans hpcj)))
      (Function.update_self ..) rfl hj
    exact ⟨.choose i g :: .swapIn i :: ls', s'',
      .cons ⟨trivial, hchoose⟩ (.cons ⟨trivial, hswap⟩ hrun), hnot⟩
  | _ => exact absurd trivial hset

end

/-! ## Runs of one fiber -/

theorem oneEntry_schedule {s : Pool φ ι} {ft : FiberAndThread φ Nat ι} {fiber : Nat} {f : Fiber φ}
    (htask : ft.task = .fiber fiber) (hobj : s.heap fiber = some f)
    (hended : f.m_state.ended = false) (hready : f.m_state ≠ .READY)
    (hcb : ∀ i, s.cb_fiber i ≠ some fiber) (hq : s.queued fiber = 0)
    (hspot : ∀ i, (s.pc i).spot fiber = none ∨
      ∃ own, (s.pc i).spot fiber = some (.at own .executing)) : OneEntry s (.schedule ft) := by
  intro fiber' hfiber
  rw [htask] at hfiber
  cases hfiber
  refine ⟨⟨⟨f, hobj, hended⟩, fun i hi => absurd hi (hcb i)⟩, ?_⟩
  rintro (hpos | ⟨f', hobj', hr⟩ | ⟨i, hi⟩)
  · rw [hq] at hpos
    exact Nat.lt_irrefl 0 hpos
  · rw [hobj] at hobj'
    cases hobj'
    exact hready hr
  · rcases hspot i with hnone | ⟨own, hown⟩
    · rw [hnone] at hi
      rcases hi with hi | ⟨own', hi⟩ <;> cases hi
    · rw [hown] at hi
      rcases hi with hi | ⟨own', hi⟩ <;> cases hi

/-- The first entry of a new fiber. -/
theorem oneEntry_scheduleNew (cb : φ) :
    OneEntry ((init : Pool φ ι).setFiber 0 (.make cb)) (.schedule ⟨.fiber 0, none⟩) := by
  apply oneEntry_schedule rfl rfl rfl
  · show FiberState.INIT ≠ .READY
    simp
  · intro i hi
    cases hi
  · rfl
  · exact fun i => .inl rfl

/-- A fiber that is scheduled once. -/
theorem exclusive_of_settled_once : ∃ s : Pool Nat Bool,
    s.pc true = .on ⟨.fiber 0, none⟩ 0 .executing ∧ Exclusive s := by
  refine ⟨?_, ?_, exclusive_of_settled
    [.make 0 7, .schedule ⟨.fiber 0, none⟩, .scan true, .choose true 0, .swapIn true] ?_⟩
  rotate_left 2
  · refine .cons ⟨⟨trivial, trivial⟩, .make rfl 7⟩ ?_
    refine .cons ⟨⟨oneEntry_scheduleNew 7, trivial⟩, .schedule _ ⟨.fiber 0, none⟩⟩ ?_
    refine .cons ⟨⟨trivial, ?_⟩, .take rfl rfl⟩ ?_
    · intro ft fiber hft htask j hj
      cases hj
    refine .cons ⟨⟨trivial, trivial⟩, .chooseFiber rfl rfl rfl rfl⟩ ?_
    refine .cons ⟨⟨trivial, trivial⟩, .swapIn rfl rfl rfl⟩ ?_
    exact .nil _
  · rfl

/-- A fiber is scheduled while it runs, by the event it has registered, before it yields. -/
def scheduleRunning : List (Move Nat Bool) :=
  [.make 0 7, .schedule ⟨.fiber 0, none⟩, .scan true, .choose true 0, .swapIn true,
    .schedule ⟨.fiber 0, none⟩, .yield true false, .scan false, .choose false 0, .swapIn false]

/-- Its second entry is taken after the yield and before the swap. -/
theorem run_scheduleRunning : ∃ s : Pool Nat Bool,
    Run (Guard OneEntry Step) init scheduleRunning s ∧
      (s.pc true).runs = some 0 ∧ (s.pc false).runs = some 0 := by
  refine ⟨?_, ?_, ?_, ?_⟩
  rotate_left 1
  · refine .cons ⟨trivial, .make rfl 7⟩ ?_
    refine .cons ⟨oneEntry_scheduleNew 7, .schedule _ ⟨.fiber 0, none⟩⟩ ?_
    refine .cons ⟨trivial, .take rfl rfl⟩ ?_
    refine .cons ⟨trivial, .chooseFiber rfl rfl rfl rfl⟩ ?_
    refine .cons ⟨trivial, .swapIn rfl rfl rfl⟩ ?_
    refine .cons ⟨?_, .schedule _ ⟨.fiber 0, none⟩⟩ ?_
    · apply oneEntry_schedule rfl rfl rfl
      · show FiberState.EXEC ≠ .READY
        simp
      · intro i hi
        cases hi
      · rfl
      · intro i
        cases i with
        | false => exact .inl rfl
        | true => exact .inr ⟨false, rfl⟩
    refine .cons ⟨trivial, .yield rfl rfl false⟩ ?_
    refine .cons ⟨trivial, .take rfl rfl⟩ ?_
    refine .cons ⟨trivial, .chooseFiber rfl rfl rfl rfl⟩ ?_
    refine .cons ⟨trivial, .swapIn rfl rfl rfl⟩ ?_
    exact .nil _
  · rfl
  · rfl

theorem not_exclusive : ¬∀ (ls : List (Move Nat Bool)) (s : Pool Nat Bool),
    Run (Guard OneEntry Step) init ls s → Exclusive s := by
  intro hall
  obtain ⟨s, hrun, htrue, hfalse⟩ := run_scheduleRunning
  cases (hall _ s hrun).one true false 0 htrue hfalse

end Pool

end Captain.Scheduler
