import Mathlib.Tactic.Cases

/-!
# The task queue of `Scheduler` (`captain/scheduler.cpp`)

`m_fibers` is a list of tasks, oldest first, each for any thread or for one thread. `scan` is the
loop of `Scheduler::run` over the list, under the mutex: it passes over the tasks for other threads
and over the fibers whose state is `EXEC`, and takes the first task that is left.
-/

namespace Captain

/-- What a scheduler is given: a callback or a fiber. -/
inductive Task (φ ψ : Type)
  | cb (cb : φ)
  | fiber (fiber : ψ)
  deriving DecidableEq, Repr

/-- The task is a callback, which runs on a fiber of the worker. -/
def Task.isCb {φ ψ : Type} : Task φ ψ → Bool
  | .cb _ => true
  | .fiber _ => false

/-- The task is the fiber `f`. -/
def Task.isFiber {φ ψ : Type} [DecidableEq ψ] (f : ψ) : Task φ ψ → Bool
  | .cb _ => false
  | .fiber g => g = f

theorem Task.eq_of_isFiber {φ ψ : Type} [DecidableEq ψ] {task : Task φ ψ} {f : ψ}
    (h : task.isFiber f = true) : task = .fiber f := by
  cases task with
  | cb cb => cases h
  | fiber g => rw [of_decide_eq_true h]

/-- A `Scheduler::FiberAndThread` that is not empty; `thread` is `none` for any thread (-1). -/
structure FiberAndThread (φ ψ κ : Type) where
  task : Task φ ψ
  thread : Option κ
  deriving DecidableEq, Repr

namespace Scheduler

variable {φ ψ κ : Type}

/-- What a scan finds, what it leaves, and whether it is to call `tickle`. -/
structure Scan (φ ψ κ : Type) where
  ft : Option (FiberAndThread φ ψ κ)
  m_fibers : List (FiberAndThread φ ψ κ)
  tickle_me : Bool

/-- The fiber of a task is in the state `EXEC`. -/
def executing (exec : ψ → Bool) : Task φ ψ → Bool
  | .cb _ => false
  | .fiber f => exec f

variable [DecidableEq κ]

/-- The loop over `m_fibers` in `Scheduler::run`, on the thread `me`. -/
def scan (exec : ψ → Bool) (me : κ) : List (FiberAndThread φ ψ κ) → Scan φ ψ κ
  | [] => ⟨none, [], false⟩
  | it :: rest =>
    if it.thread ≠ none ∧ it.thread ≠ some me then
      { scan exec me rest with
        m_fibers := it :: (scan exec me rest).m_fibers
        tickle_me := true }
    else if executing exec it.task then
      { scan exec me rest with m_fibers := it :: (scan exec me rest).m_fibers }
    else ⟨some it, rest, false⟩

/-- A scan that finds nothing leaves the queue as it is. It is to call `tickle`, or all tasks are
fibers that are executing. -/
theorem scan_none {exec : ψ → Bool} {me : κ} {q : List (FiberAndThread φ ψ κ)}
    (h : (scan exec me q).ft = none) : (scan exec me q).m_fibers = q ∧
      ((scan exec me q).tickle_me = true ∨ ∀ it ∈ q, executing exec it.task = true) := by
  induction q with
  | nil => exact ⟨rfl, .inr fun it hit => by cases hit⟩
  | cons it rest ih =>
    unfold scan at h ⊢
    split at h
    · rename_i hpin
      rw [if_pos hpin]
      exact ⟨congrArg _ (ih h).1, .inl rfl⟩
    · rename_i hpin
      rw [if_neg hpin]
      split at h
      · rename_i hexec
        rw [if_pos hexec]
        obtain ⟨hq, htickle⟩ := ih h
        refine ⟨congrArg _ hq, htickle.imp_right fun hall => ?_⟩
        exact List.forall_mem_cons.mpr ⟨hexec, hall⟩
      · cases h

/-- A scan that finds something takes it out of the queue, and it is not executing. -/
theorem scan_some {exec : ψ → Bool} {me : κ} {q : List (FiberAndThread φ ψ κ)}
    {ft : FiberAndThread φ ψ κ} (h : (scan exec me q).ft = some ft) :
    ∃ l r, q = l ++ ft :: r ∧ (scan exec me q).m_fibers = l ++ r ∧
      executing exec ft.task = false ∧ (ft.thread = none ∨ ft.thread = some me) := by
  induction q with
  | nil => cases h
  | cons it rest ih =>
    unfold scan at h ⊢
    split at h
    · rename_i hpin
      rw [if_pos hpin]
      obtain ⟨l, r, hq, hrest, hft⟩ := ih h
      exact ⟨it :: l, r, by rw [hq]; rfl, congrArg _ hrest, hft⟩
    · rename_i hpin
      rw [if_neg hpin]
      split at h
      · rename_i hexec
        rw [if_pos hexec]
        obtain ⟨l, r, hq, hrest, hft⟩ := ih h
        exact ⟨it :: l, r, by rw [hq]; rfl, congrArg _ hrest, hft⟩
      · rename_i hexec
        rw [if_neg hexec]
        cases h
        refine ⟨[], rest, rfl, rfl, Bool.eq_false_iff.mpr hexec, ?_⟩
        by_cases hn : ft.thread = none
        · exact .inl hn
        · exact .inr (Classical.byContradiction fun hme => hpin ⟨hn, hme⟩)

/-- The thread `me` may take the task. -/
def takes (exec : ψ → Bool) (me : κ) (it : FiberAndThread φ ψ κ) : Bool :=
  (it.thread = none ∨ it.thread = some me) ∧ executing exec it.task = false

/-- A scan takes the first task that its thread may take. -/
theorem scan_eq_find (exec : ψ → Bool) (me : κ) (q : List (FiberAndThread φ ψ κ)) :
    (scan exec me q).ft = q.find? (takes exec me) ∧
      (scan exec me q).m_fibers = q.eraseP (takes exec me) := by
  induction q with
  | nil => exact ⟨rfl, rfl⟩
  | cons it rest ih =>
    obtain ⟨hft, hq⟩ := ih
    unfold scan
    split
    · rename_i hpin
      have hno : takes exec me it = false := by
        apply decide_eq_false
        exact fun htakes => htakes.1.elim hpin.1 hpin.2
      rw [List.find?_cons_of_neg (by simp [hno]), List.eraseP_cons_of_neg (by simp [hno])]
      exact ⟨hft, congrArg _ hq⟩
    · rename_i hpin
      split
      · rename_i hexec
        have hno : takes exec me it = false := by
          apply decide_eq_false
          intro htakes
          rw [hexec] at htakes
          cases htakes.2
        rw [List.find?_cons_of_neg (by simp [hno]), List.eraseP_cons_of_neg (by simp [hno])]
        exact ⟨hft, congrArg _ hq⟩
      · rename_i hexec
        have hyes : takes exec me it = true := by
          apply decide_eq_true
          refine ⟨?_, Bool.eq_false_iff.mpr hexec⟩
          by_cases hn : it.thread = none
          · exact .inl hn
          · exact .inr (Classical.byContradiction fun hme => hpin ⟨hn, hme⟩)
        rw [List.find?_cons_of_pos hyes, List.eraseP_cons_of_pos hyes]
        exact ⟨rfl, rfl⟩

end Scheduler

end Captain
