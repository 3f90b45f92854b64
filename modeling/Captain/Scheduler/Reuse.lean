import Captain.Scheduler.Ledger

/-!
# Wake-ups for a fiber that is used again

`Scheduler::run` keeps the fiber of a callback that has ended, resets it, and runs the next callback
on it. A `Reuse` is a pool that counts the resets of each fiber, its generation, and stamps the
entries of the queue: an entry that is made for a fiber between the start and the end of a callback
bears the generation of the fiber.

* `wakeup_current`: if no fiber is reset while an entry that was made during the ended callback is
  still queued or held, then no entry resumes or starts a later callback, and an entry whose
  callback has ended is discarded.
-/

namespace Captain.Scheduler

open Transition

variable {φ ι : Type}

/-- The fiber has started its callback and not ended it. -/
def Pool.started (s : Pool φ ι) (fiber : Nat) : Bool :=
  (s.heap fiber).any fun f => f.m_state = .EXEC ∨ f.m_state = .HOLD ∨ f.m_state = .READY

/-- The fiber that a step resets: the `cb_fiber` of a worker, for the next callback or because its
callback has ended. -/
def Pool.resets (s : Pool φ ι) : Move φ ι → Option Nat
  | .choose i fiber =>
    match s.pc i with
    | .holding ft => if ft.task.isCb ∧ s.cb_fiber i = some fiber then some fiber else none
    | _ => none
  | .decide i =>
    match s.pc i with
    | .on ft fiber .deciding => if ft.task.isCb ∧ s.ended fiber then some fiber else none
    | _ => none
  | _ => none

/-- The entry that a step makes. -/
def Pool.made (s : Pool φ ι) : Move φ ι → Option (FiberAndThread φ Nat ι)
  | .schedule ft => some ft
  | .requeue i =>
    match s.pc i with
    | .on _ fiber _ => some ⟨.fiber fiber, none⟩
    | _ => none
  | _ => none

structure Stamped (φ ι : Type) where
  ft : FiberAndThread φ Nat ι
  stamp : Option Nat

structure Reuse (φ ι : Type) where
  pool : Pool φ ι
  generation : Nat → Nat
  /-- `m_fibers` with the stamps -/
  entries : List (Stamped φ ι)
  /-- the stamp of the entry that a worker took last -/
  taken : ι → Option Nat

namespace Reuse

def init : Reuse φ ι := ⟨.init, fun _ => 0, [], fun _ => none⟩

/-- The stamp of an entry that is made now. -/
def stamp (s : Reuse φ ι) : Task φ Nat → Option Nat
  | .cb _ => none
  | .fiber fiber => if s.pool.started fiber then some (s.generation fiber) else none

/-- An entry that is made now. -/
def stamped (s : Reuse φ ι) (ft : FiberAndThread φ Nat ι) : Stamped φ ι := ⟨ft, s.stamp ft.task⟩

/-- An entry with the stamp `g` is queued or held. -/
def Has (s : Reuse φ ι) (ft : FiberAndThread φ Nat ι) (g : Nat) : Prop :=
  ⟨ft, some g⟩ ∈ s.entries ∨ ∃ i, ft ∈ (s.pool.pc i).held ∧ s.taken i = some g

/-- An entry that was made for the fiber in its generation is queued or held. -/
def Pending (s : Reuse φ ι) (fiber : Nat) : Prop :=
  ∃ ft, ft.task = .fiber fiber ∧ s.Has ft (s.generation fiber)

/-- A step that resets a fiber finds no entry for the callback that ended on it. -/
def ResetsIdle (s : Reuse φ ι) (l : Move φ ι) : Prop :=
  ∀ fiber, s.pool.resets l = some fiber → ¬s.Pending fiber

/-- The worker is about to swap in a fiber, for an entry that was made during an earlier
callback of the fiber. -/
def Stale (s : Reuse φ ι) (i : ι) : Prop :=
  ∃ ft fiber g, s.pool.pc i = .on ft fiber .entering ∧ ft.task = .fiber fiber ∧
    s.taken i = some g ∧ s.generation fiber ≠ g

def nextGeneration (s : Reuse φ ι) (l : Move φ ι) : Nat → Nat :=
  match s.pool.resets l with
  | some fiber => Function.update s.generation fiber (s.generation fiber + 1)
  | none => s.generation

variable [DecidableEq ι]

def nextEntries (s : Reuse φ ι) : Move φ ι → List (Stamped φ ι)
  | .scan i => s.entries.eraseP fun e => takes s.pool.exec i e.ft
  | l => s.entries ++ (s.pool.made l).toList.map s.stamped

def nextTaken (s : Reuse φ ι) : Move φ ι → ι → Option Nat
  | .scan i => Function.update s.taken i
      ((s.entries.find? fun e => takes s.pool.exec i e.ft).bind Stamped.stamp)
  | _ => s.taken

inductive Step : Reuse φ ι → Move φ ι → Reuse φ ι → Prop
  | mk {s : Reuse φ ι} {l : Move φ ι} {p : Pool φ ι} (hstep : Pool.Step s.pool l p) :
      Step s l ⟨p, s.nextGeneration l, s.nextEntries l, s.nextTaken l⟩

variable {s s' : Reuse φ ι} {l : Move φ ι}

/-! ## The entries -/

/-- The stamped entries are those of the queue. -/
def Aligned (s : Reuse φ ι) : Prop := s.entries.map Stamped.ft = s.pool.m_fibers

omit [DecidableEq ι] in
/-- What a scan finds, with its stamp. -/
theorem Aligned.find (h : Aligned s) (p : FiberAndThread φ Nat ι → Bool) :
    s.pool.m_fibers.find? p = (s.entries.find? fun e => p e.ft).map Stamped.ft ∧
      (s.entries.eraseP fun e => p e.ft).map Stamped.ft = s.pool.m_fibers.eraseP p := by
  rw [← h]
  exact ⟨List.find?_map, List.eraseP_map.symm⟩

theorem Step.aligned (hstep : Step s l s') (h : Aligned s) : Aligned s' := by
  obtain ⟨hstep⟩ := hstep
  have hpush : ∀ made : Option (FiberAndThread φ Nat ι),
      (s.entries ++ made.toList.map s.stamped).map Stamped.ft =
        s.pool.m_fibers ++ made.toList := by
    intro made
    rw [List.map_append, h, List.map_map]
    exact congrArg _ (List.map_id _)
  cases hstep with
  | schedule ft => exact hpush (some ft)
  | @take i hpc ft hft =>
    exact (h.find (takes s.pool.exec i)).2.trans (scan_eq_find _ _ _).2.symm
  | @pass i hpc hft =>
    have hkeep := (scan_none hft).1
    exact (h.find (takes s.pool.exec i)).2.trans ((scan_eq_find _ _ _).2.symm.trans hkeep)
  | @requeue i ft fiber hpc =>
    have hmade : s.pool.made (.requeue i) = some ⟨.fiber fiber, none⟩ := by
      simp only [Pool.made, hpc]
    show (s.entries ++ (s.pool.made (.requeue i)).toList.map s.stamped).map Stamped.ft = _
    rw [hpush, hmade]
    exact ((s.pool.push ⟨.fiber fiber, none⟩).dropCbFiber_frame i ft.task).2.2.1.symm
  | @settle i ft fiber hpc f hf =>
    refine (hpush none).trans ?_
    rw [Option.toList_none, List.append_nil]
    exact ((s.pool.setFiber fiber _).dropCbFiber_frame i ft.task).2.2.1.symm
  | _ => exact (hpush none).trans (List.append_nil _)

/-- A worker holds nothing that it did not hold, unless it scans. -/
theorem held_of_step {p p' : Pool φ ι} (hstep : Pool.Step p l p') (hscan : ∀ i, l ≠ .scan i)
    {j : ι} {ft : FiberAndThread φ Nat ι} (h : ft ∈ (p'.pc j).held) : ft ∈ (p.pc j).held := by
  have hmove : ∀ (i : ι) (pc : Pc φ ι), p'.pc = Function.update p.pc i pc →
      (ft ∈ pc.held → ft ∈ (p.pc i).held) → ft ∈ (p.pc j).held := by
    intro i pc hpc hheld
    rw [hpc] at h
    by_cases hj : j = i
    · rw [hj, Function.update_self] at h
      rw [hj]
      exact hheld h
    · rwa [Function.update_of_ne hj] at h
  have hnone : ft ∉ (0 : Multiset (FiberAndThread φ Nat ι)) := Multiset.notMem_zero ft
  cases hstep with
  | make hnew cb => exact h
  | schedule ft => exact h
  | @take i => exact absurd rfl (hscan i)
  | @pass i => exact absurd rfl (hscan i)
  | chooseFiber hpc | reuse hpc | fresh hpc =>
    apply hmove _ _ rfl
    rw [hpc]
    exact id
  | discard | swapIn | yield | finish | swapOut | decrement | ready | endFiber | endCb | hold
  | wake => exact hmove _ _ rfl fun hft => absurd hft hnone
  | @requeue i ft' fiber hpc =>
    apply hmove i .scanning _ fun hft => absurd hft hnone
    exact congrArg (fun pc => Function.update pc i .scanning)
      ((p.push ⟨.fiber fiber, none⟩).dropCbFiber_frame i ft'.task).2.1
  | @settle i ft' fiber hpc f hf =>
    apply hmove i .scanning _ fun hft => absurd hft hnone
    exact congrArg (fun pc => Function.update pc i .scanning)
      ((p.setFiber fiber _).dropCbFiber_frame i ft'.task).2.1

omit [DecidableEq ι] in
theorem generation_of_stamp {task : Task φ Nat} {g fiber : Nat} (hg : s.stamp task = some g)
    (htask : task = .fiber fiber) : s.generation fiber = g := by
  rw [htask, stamp] at hg
  split at hg
  · exact Option.some.inj hg
  · cases hg

omit [DecidableEq ι] in
/-- A step that makes an entry resets no fiber. -/
theorem nextGeneration_of_made {ft : FiberAndThread φ Nat ι} (h : s.pool.made l = some ft) :
    s.nextGeneration l = s.generation := by
  cases l with
  | schedule | requeue => rfl
  | _ => cases h

/-- What a worker takes is in the queue, with its stamp. -/
theorem mem_entries_of_take (h : Aligned s) {i : ι} {ft : FiberAndThread φ Nat ι} {g : Nat}
    (hft : (s.pool.scan i).ft = some ft)
    (hg : (s.entries.find? fun e => takes s.pool.exec i e.ft).bind Stamped.stamp = some g) :
    ⟨ft, some g⟩ ∈ s.entries := by
  obtain ⟨e, he, hstamp⟩ := Option.bind_eq_some_iff.mp hg
  rw [Pool.scan, (scan_eq_find _ _ _).1, (h.find _).1, he] at hft
  cases hft
  rw [← hstamp]
  exact List.mem_of_find?_eq_some he

/-- An entry that is queued or held was so before, or it is made by the step, which resets no
fiber, and bears the generation of its fiber. -/
theorem Step.has (hstep : Step s l s') (h : Aligned s) {ft : FiberAndThread φ Nat ι} {g : Nat}
    (hhas : s'.Has ft g) : s.Has ft g ∨
      s'.generation = s.generation ∧ ∀ fiber, ft.task = .fiber fiber → s.generation fiber = g := by
  obtain ⟨hstep⟩ := hstep
  rcases hhas with hmem | ⟨j, hft, hg⟩
  · change _ ∈ s.nextEntries l at hmem
    unfold nextEntries at hmem
    split at hmem
    · exact .inl (.inl (List.mem_of_mem_eraseP hmem))
    · rcases List.mem_append.mp hmem with hmem | hmem
      · exact .inl (.inl hmem)
      · obtain ⟨ft', hmade, heq⟩ := List.mem_map.mp hmem
        injection heq with hft hg
        subst hft
        rw [Option.mem_toList] at hmade
        exact .inr ⟨nextGeneration_of_made hmade, fun fiber => generation_of_stamp hg⟩
  · by_cases hscan : ∃ i, l = .scan i
    · obtain ⟨i, rfl⟩ := hscan
      change Function.update s.taken i _ j = some g at hg
      by_cases hj : j = i
      · subst hj
        rw [Function.update_self] at hg
        cases hstep with
        | take hpc hft' =>
          change ft ∈ (Function.update s.pool.pc j _ j).held at hft
          rw [Function.update_self] at hft
          cases Multiset.mem_singleton.mp hft
          exact .inl (.inl (mem_entries_of_take h hft' hg))
        | pass hpc hft' =>
          change ft ∈ (Function.update s.pool.pc j .idle j).held at hft
          rw [Function.update_self] at hft
          cases Multiset.notMem_zero ft hft
      · rw [Function.update_of_ne hj] at hg
        refine .inl (.inr ⟨j, ?_, hg⟩)
        cases hstep with
        | take | pass =>
          change ft ∈ (Function.update s.pool.pc i _ j).held at hft
          rwa [Function.update_of_ne hj] at hft
    · have hno : ∀ i, l ≠ .scan i := fun i hi => hscan ⟨i, hi⟩
      refine .inl (.inr ⟨j, held_of_step hstep hno hft, ?_⟩)
      cases l with
      | scan i => exact absurd rfl (hno i)
      | _ => exact hg

/-! ## The callback of a generation -/

/-- The fiber has the callback of `f`, or has run it to the end. -/
def Same (f f' : Fiber φ) : Prop := f'.m_cb = f.m_cb ∨ f'.m_state = .TERM

omit [DecidableEq ι] in
theorem same_setFiber {p : Pool φ ι} {fiber g : Nat} {f f' : Fiber φ} (hf : p.heap fiber = some f)
    (hsame : fiber = g → Same f f') :
    ∃ f'', (p.setFiber g f').heap fiber = some f'' ∧ Same f f'' := by
  by_cases hg : fiber = g
  · subst hg
    exact ⟨f', Function.update_self .., hsame rfl⟩
  · exact ⟨f, (Function.update_of_ne hg _ _).trans hf, .inl rfl⟩

omit [DecidableEq ι] in
theorem nextGeneration_of_resets {fiber : Nat} (h : s.pool.resets l = some fiber) :
    s.nextGeneration l fiber ≠ s.generation fiber := by
  unfold nextGeneration
  rw [h]
  simp

/-- While its generation stays, a fiber keeps its callback. -/
theorem Step.same (hstep : Step s l s') {fiber : Nat} {f : Fiber φ}
    (hf : s.pool.heap fiber = some f) (hgen : s'.generation fiber = s.generation fiber) :
    ∃ f', s'.pool.heap fiber = some f' ∧ Same f f' := by
  obtain ⟨hstep⟩ := hstep
  cases hstep with
  | make hnew cb =>
    apply same_setFiber hf
    rintro rfl
    rw [hnew] at hf
    cases hf
  | @reuse i ft hpc cb htask g hcb f₀ f' hf₀ hreset =>
    apply same_setFiber hf
    rintro rfl
    apply absurd hgen (nextGeneration_of_resets _)
    simp [Pool.resets, hpc, htask, hcb, Task.isCb]
  | fresh hpc htask hcb hnew =>
    apply same_setFiber hf
    rintro rfl
    rw [hnew] at hf
    cases hf
  | swapIn hpc hf₀ hswap =>
    apply same_setFiber hf
    rintro rfl
    rw [hf₀] at hf
    cases hf
    obtain ⟨-, rfl⟩ := Fiber.swapIn_eq_some.mp hswap
    exact .inl rfl
  | yield hpc hf₀ ready =>
    apply same_setFiber hf
    rintro rfl
    rw [hf₀] at hf
    cases hf
    exact .inl rfl
  | finish hpc hf₀ thrown =>
    apply same_setFiber hf
    rintro rfl
    rw [hf₀] at hf
    cases hf
    cases thrown with
    | false => exact .inr rfl
    | true => exact .inl rfl
  | swapOut hpc hf₀ =>
    apply same_setFiber hf
    rintro rfl
    rw [hf₀] at hf
    cases hf
    exact .inl rfl
  | @endCb i ft g hpc f₀ f' hf₀ hstate cb htask hreset =>
    apply same_setFiber hf
    rintro rfl
    apply absurd hgen (nextGeneration_of_resets _)
    simp [Pool.resets, hpc, htask, Task.isCb, Pool.ended, hf₀, hstate]
  | @requeue i ft g hpc =>
    refine ⟨f, ?_, .inl rfl⟩
    exact (congrFun ((s.pool.push ⟨.fiber g, none⟩).dropCbFiber_frame i ft.task).1 fiber).trans hf
  | @settle i ft g hpc f₀ hf₀ =>
    have hhold : fiber = g → Same f { f₀ with m_state := .HOLD } := by
      rintro rfl
      rw [hf₀] at hf
      cases hf
      exact .inl rfl
    obtain ⟨f', hf', hsame⟩ := same_setFiber hf hhold
    refine ⟨f', ?_, hsame⟩
    exact (congrFun ((s.pool.setFiber g _).dropCbFiber_frame i ft.task).1 fiber).trans hf'
  | _ => exact ⟨f, hf, .inl rfl⟩

/-! ## Runs -/

/-- Every entry with a stamp bears the generation of its fiber. -/
structure Current (s : Reuse φ ι) : Prop where
  aligned : Aligned s
  stamps : ∀ ft g fiber, s.Has ft g → ft.task = .fiber fiber → s.generation fiber = g

omit [DecidableEq ι] in
theorem current_init : Current (init : Reuse φ ι) := by
  refine ⟨rfl, fun ft g fiber hhas => ?_⟩
  rcases hhas with hmem | ⟨i, -, hg⟩
  · cases hmem
  · cases hg

omit [DecidableEq ι] in
theorem nextGeneration_of_ne {fiber : Nat} (h : s.pool.resets l ≠ some fiber) :
    s.nextGeneration l fiber = s.generation fiber := by
  unfold nextGeneration
  cases hreset : s.pool.resets l with
  | none => rfl
  | some fiber' =>
    rw [hreset] at h
    exact Function.update_of_ne (fun heq => h (congrArg some heq.symm)) _ _

/-- **Step lemma.** -/
theorem Step.current (hstep : Step s l s') (hok : s.ResetsIdle l) (h : Current s) :
    Current s' := by
  refine ⟨hstep.aligned h.aligned, fun ft g fiber hhas htask => ?_⟩
  rcases hstep.has h.aligned hhas with hold | ⟨hgen, hnew⟩
  · have hg := h.stamps ft g fiber hold htask
    obtain ⟨hstep⟩ := hstep
    refine (nextGeneration_of_ne fun hreset => ?_).trans hg
    apply hok fiber hreset
    exact ⟨ft, htask, hg ▸ hold⟩
  · rw [hgen]
    exact hnew fiber htask

theorem run_current {ls : List (Move φ ι)} (h : Run (Guard ResetsIdle Step) init ls s) :
    Current s :=
  h.invariant (I := Current) (fun _ _ _ hs hstep => hstep.2.current hstep.1 hs) current_init

omit [DecidableEq ι] in
theorem Current.not_stale (h : Current s) (i : ι) : ¬s.Stale i := by
  rintro ⟨ft, fiber, g, hpc, htask, hg, hne⟩
  apply hne
  apply h.stamps ft g fiber _ htask
  refine .inr ⟨i, ?_, hg⟩
  rw [hpc]
  exact Multiset.mem_singleton_self ft

/-- In a run in which no fiber is reset while an entry made during its ended callback is queued or
held, a worker never swaps in a fiber for an entry of an earlier callback; and a worker that holds
an entry whose callback has ended discards it. A fiber keeps its callback while its generation
stays. -/
theorem wakeup_current (ls : List (Move φ ι)) (h : Run (Guard ResetsIdle Step) init ls s) :
    (∀ i, ¬s.Stale i) ∧
      (∀ i ft fiber g, s.pool.pc i = .holding ft → ft.task = .fiber fiber → s.taken i = some g →
        s.generation fiber ≠ g ∨ s.pool.ended fiber = true →
          ∀ fiber' s', Step s (.choose i fiber') s' → s'.pool.pc i = .scanning) ∧
      ∀ l s' fiber f, Step s l s' → s.pool.heap fiber = some f →
        s'.generation fiber = s.generation fiber →
          ∃ f', s'.pool.heap fiber = some f' ∧ Same f f' := by
  have hcurrent := run_current h
  refine ⟨hcurrent.not_stale, ?_, fun l s' fiber f hstep hf hgen => hstep.same hf hgen⟩
  intro i ft fiber g hpc htask hg hover fiber' s' hstep
  have hended : s.pool.ended fiber = true := by
    rcases hover with hne | hended
    · apply absurd _ hne
      apply hcurrent.stamps ft g fiber _ htask
      refine .inr ⟨i, ?_, hg⟩
      rw [hpc]
      exact Multiset.mem_singleton_self ft
    · exact hended
  obtain ⟨hstep⟩ := hstep
  cases hstep with
  | chooseFiber hpc' htask' hf hstate =>
    rw [hpc] at hpc'
    cases hpc'
    rw [htask] at htask'
    cases htask'
    rw [Pool.ended, hf, Option.any_some, hstate] at hended
    cases hended
  | discard hpc' htask' hf hstate => exact Function.update_self ..
  | reuse hpc' htask' =>
    rw [hpc] at hpc'
    cases hpc'
    rw [htask] at htask'
    cases htask'
  | fresh hpc' htask' =>
    rw [hpc] at hpc'
    cases hpc'
    rw [htask] at htask'
    cases htask'

/-- A callback schedules its own fiber and yields to hold; the worker takes the entry. -/
def wakeInTime : List (Move Nat Bool) :=
  [.schedule ⟨.cb 1, none⟩, .scan true, .choose true 0, .swapIn true, .schedule ⟨.fiber 0, none⟩,
    .yield true false, .swapOut true, .decrement true, .decide true, .settle true, .scan true,
    .choose true 0]

theorem run_wakeInTime : ∃ s : Reuse Nat Bool, Run (Guard ResetsIdle Step) init wakeInTime s ∧
    s.pool.pc true = .on ⟨.fiber 0, none⟩ 0 .entering ∧ s.taken true = some 0 := by
  have hstep : ∀ (s : Reuse Nat Bool) l p, s.pool.resets l = none → Pool.Step s.pool l p →
      Guard ResetsIdle Step s l ⟨p, s.nextGeneration l, s.nextEntries l, s.nextTaken l⟩ := by
    intro s l p hno hstep
    refine ⟨fun fiber hreset => ?_, ⟨hstep⟩⟩
    rw [hno] at hreset
    cases hreset
  refine ⟨?_, ?_, ?_, ?_⟩
  rotate_left 1
  · refine .cons (hstep _ _ _ rfl (.schedule _ _)) ?_
    refine .cons (hstep _ _ _ rfl (.take rfl rfl)) ?_
    refine .cons (hstep _ _ _ rfl (.fresh rfl rfl rfl rfl)) ?_
    refine .cons (hstep _ _ _ rfl (.swapIn rfl rfl rfl)) ?_
    refine .cons (hstep _ _ _ rfl (.schedule _ _)) ?_
    refine .cons (hstep _ _ _ rfl (.yield rfl rfl false)) ?_
    refine .cons (hstep _ _ _ rfl (.swapOut rfl rfl)) ?_
    refine .cons (hstep _ _ _ rfl (.decrement rfl)) ?_
    refine .cons (hstep _ _ _ rfl (.hold rfl rfl (by decide) rfl)) ?_
    refine .cons (hstep _ _ _ rfl (.settle rfl rfl)) ?_
    refine .cons (hstep _ _ _ rfl (.take rfl rfl)) ?_
    refine .cons (hstep _ _ _ rfl (.chooseFiber rfl rfl rfl rfl)) ?_
    exact .nil _
  · rfl
  · rfl

theorem wakeup_current_inTime : ∃ s : Reuse Nat Bool,
    Run (Guard ResetsIdle Step) init wakeInTime s ∧ s.taken true = some 0 ∧ ¬s.Stale true := by
  obtain ⟨s, hrun, -, htaken⟩ := run_wakeInTime
  exact ⟨s, hrun, htaken, (wakeup_current _ hrun).1 true⟩

/-- A callback schedules its own fiber and ends. -/
def wakeAfterEnd : List (Move Nat Bool) :=
  [.schedule ⟨.cb 1, none⟩, .scan true, .choose true 0, .swapIn true, .schedule ⟨.cb 2, none⟩,
    .schedule ⟨.fiber 0, none⟩, .finish true false, .swapOut true, .decrement true, .decide true]

/-- The worker takes the next callback, which yields to hold, and then the entry of the first. -/
def wakeNext : List (Move Nat Bool) :=
  [.scan true, .choose true 0, .swapIn true, .yield true false, .swapOut true, .decrement true,
    .decide true, .settle true, .scan true, .choose true 0]

theorem run_wakeAfterEnd : ∃ s : Reuse Nat Bool,
    Run Step init (wakeAfterEnd ++ wakeNext) s ∧ s.Stale true := by
  refine ⟨?_, ?_, ?_⟩
  rotate_left 1
  · refine .cons ⟨.schedule _ _⟩ ?_
    refine .cons ⟨.take rfl rfl⟩ ?_
    refine .cons ⟨.fresh rfl rfl rfl rfl⟩ ?_
    refine .cons ⟨.swapIn rfl rfl rfl⟩ ?_
    refine .cons ⟨.schedule _ _⟩ ?_
    refine .cons ⟨.schedule _ _⟩ ?_
    refine .cons ⟨.finish rfl rfl false⟩ ?_
    refine .cons ⟨.swapOut rfl rfl⟩ ?_
    refine .cons ⟨.decrement rfl⟩ ?_
    refine .cons ⟨.endCb rfl rfl rfl rfl rfl⟩ ?_
    refine .cons ⟨.take rfl rfl⟩ ?_
    refine .cons ⟨.reuse rfl rfl rfl rfl rfl⟩ ?_
    refine .cons ⟨.swapIn rfl rfl rfl⟩ ?_
    refine .cons ⟨.yield rfl rfl false⟩ ?_
    refine .cons ⟨.swapOut rfl rfl⟩ ?_
    refine .cons ⟨.decrement rfl⟩ ?_
    refine .cons ⟨.hold rfl rfl (by decide) rfl⟩ ?_
    refine .cons ⟨.settle rfl rfl⟩ ?_
    refine .cons ⟨.take rfl rfl⟩ ?_
    refine .cons ⟨.chooseFiber rfl rfl rfl rfl⟩ ?_
    exact .nil _
  · exact ⟨_, _, 0, rfl, rfl, rfl, by decide⟩

/-- The first callback's wake-up resumes the second callback. -/
theorem not_wakeup_current : ¬∀ (ls : List (Move Nat Bool)) (s : Reuse Nat Bool),
    Run Step init ls s → ∀ i, ¬s.Stale i := by
  intro hall
  obtain ⟨s, hrun, hstale⟩ := run_wakeAfterEnd
  exact hall _ s hrun true hstale

end Reuse

end Captain.Scheduler
