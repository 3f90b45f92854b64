import Captain.Scheduler.Pool

/-!
# The life of a fiber in the scheduler

A fiber that yields sets its state before its context is saved, and its worker sets the state once
more afterwards. In between, the queue may offer the fiber to another worker.

The code of the fibers keeps to the following: a fiber is scheduled while it runs or is suspended,
with no other entry outstanding, and then it yields to hold (`OneEntry`).

`FiberOk` says where a fiber may be: with at most one worker, and in the queue only if that worker
is still executing it or is about to leave it in `HOLD`. Each step keeps it for every fiber, as long
as no scan takes a fiber that another worker has not finished with (`Settled`).
-/

namespace Captain.Scheduler

open Transition

variable {φ ι : Type}

/-- The fiber has yielded or ended, and its worker has not finished with it. -/
def Pc.unsettled : Pc φ ι → Option Nat
  | .on _ fiber .leaving | .on _ fiber .returned | .on _ fiber .deciding
  | .on _ fiber .settling => some fiber
  | _ => none

/-- What a worker has to do with a fiber. -/
inductive Spot
  | held
  | at (own : Bool) (stage : Stage)
  deriving DecidableEq

/-- The fiber is the worker's `cb_fiber`. -/
def Spot.own : Spot → Bool
  | .held => false
  | .at own _ => own

def Pc.spot (fiber : Nat) : Pc φ ι → Option Spot
  | .holding ft => if ft.task.isFiber fiber then some .held else none
  | .on ft f stage => if f = fiber then some (.at ft.task.isCb stage) else none
  | _ => none

namespace Pool

/-- How many entries for the fiber are queued. -/
def queued (s : Pool φ ι) (fiber : Nat) : Nat := s.m_fibers.countP fun ft => ft.task.isFiber fiber

/-- An entry for the fiber is queued, or held, or about to be queued by the fiber's worker. -/
def Outstanding (s : Pool φ ι) (fiber : Nat) : Prop :=
  0 < s.queued fiber ∨ (∃ f, s.heap fiber = some f ∧ f.m_state = .READY) ∨
    ∃ i, (s.pc i).spot fiber = some .held ∨ ∃ own, (s.pc i).spot fiber = some (.at own .entering)

/-- The fiber runs or is suspended; it is not a `cb_fiber` whose callback has ended. -/
def Alive (s : Pool φ ι) (fiber : Nat) : Prop :=
  (∃ f, s.heap fiber = some f ∧ f.m_state.ended = false) ∧
    ∀ i, s.cb_fiber i = some fiber → ((s.pc i).spot fiber).isSome

/-- A fiber has at most one entry outstanding; while it has one, it does nothing but yield to
hold. -/
def OneEntry (s : Pool φ ι) : Move φ ι → Prop
  | .schedule ft => ∀ fiber, ft.task = .fiber fiber → s.Alive fiber ∧ ¬s.Outstanding fiber
  | .yield i true => ∀ ft fiber, s.pc i = .on ft fiber .executing → ¬s.Outstanding fiber
  | .finish i _ => ∀ ft fiber, s.pc i = .on ft fiber .executing → ¬s.Outstanding fiber
  | _ => True

/-- A scan that takes a fiber finds that every worker has finished with it. -/
def Settled [DecidableEq ι] (s : Pool φ ι) : Move φ ι → Prop
  | .scan i => ∀ ft fiber, (s.scan i).ft = some ft → ft.task = .fiber fiber →
    ∀ j, (s.pc j).unsettled ≠ some fiber
  | _ => True

/-! ## The invariant -/

/-- The fiber has yielded or ended; only a fiber that yielded to hold may be queued. -/
def Yielded (f : Fiber φ) (queued : Nat) : Prop :=
  f.m_state = .HOLD ∧ queued ≤ 1 ∨ (f.m_state = .READY ∨ f.m_state.ended = true) ∧ queued = 0

def SpotOk (f : Fiber φ) (queued : Nat) : Spot → Prop
  | .held | .at _ .entering =>
    f.saved = true ∧ f.m_state ≠ .EXEC ∧ f.m_state.ended = false ∧ queued = 0
  | .at _ .executing => f.m_state = .EXEC ∧ queued ≤ 1
  | .at _ .leaving => Yielded f queued
  | .at _ .returned | .at _ .deciding => f.saved = true ∧ Yielded f queued
  | .at _ .settling => f.saved = true ∧ f.m_state = .HOLD ∧ queued ≤ 1
  | .at _ .requeueing => f.saved = true ∧ f.m_state = .READY ∧ queued = 0

/-- A fiber does not exist yet; or no worker has to do with it; or one worker keeps it for the
next callback; or one worker holds or runs it. -/
inductive FiberOk (s : Pool φ ι) (fiber : Nat) : Prop
  | absent (hobj : s.heap fiber = none) (hq : s.queued fiber = 0)
      (hspot : ∀ i, (s.pc i).spot fiber = none) (hcb : ∀ i, s.cb_fiber i ≠ some fiber)
  | resting (f : Fiber φ) (hobj : s.heap fiber = some f) (hsaved : f.saved = true)
      (hstate : f.m_state ≠ .EXEC) (hq : s.queued fiber ≤ 1)
      (hended : f.m_state.ended = true → s.queued fiber = 0)
      (hspot : ∀ i, (s.pc i).spot fiber = none) (hcb : ∀ i, s.cb_fiber i ≠ some fiber)
  | retained (i : ι) (f : Fiber φ) (hobj : s.heap fiber = some f) (hq : s.queued fiber = 0)
      (hspot : ∀ i, (s.pc i).spot fiber = none) (hcb : ∀ j, s.cb_fiber j = some fiber ↔ j = i)
  | owned (i : ι) (spot : Spot) (f : Fiber φ) (hobj : s.heap fiber = some f)
      (hok : SpotOk f (s.queued fiber) spot)
      (hspot : ∀ j, (s.pc j).spot fiber = some spot ∧ j = i ∨ (s.pc j).spot fiber = none ∧ j ≠ i)
      (hcb : ∀ j, s.cb_fiber j = some fiber ↔ j = i ∧ spot.own = true)

/-! ## Frames -/

/-- Two states that show the same of a fiber. -/
structure SameAt (s s' : Pool φ ι) (fiber : Nat) : Prop where
  obj : s'.heap fiber = s.heap fiber
  queued : s'.queued fiber = s.queued fiber
  spot : ∀ i, (s'.pc i).spot fiber = (s.pc i).spot fiber
  cb : ∀ i, s'.cb_fiber i = some fiber ↔ s.cb_fiber i = some fiber

theorem SameAt.trans {s s' s'' : Pool φ ι} {fiber : Nat} (h : SameAt s s' fiber)
    (h' : SameAt s' s'' fiber) : SameAt s s'' fiber where
  obj := h'.obj.trans h.obj
  queued := h'.queued.trans h.queued
  spot i := (h'.spot i).trans (h.spot i)
  cb i := (h'.cb i).trans (h.cb i)

theorem FiberOk.congr {s s' : Pool φ ι} {fiber : Nat} (h : FiberOk s fiber)
    (hsame : SameAt s s' fiber) : FiberOk s' fiber := by
  obtain ⟨hobj', hq', hspot', hcb'⟩ := hsame
  cases h with
  | absent hobj hq hspot hcb =>
    exact .absent (hobj'.trans hobj) (hq'.trans hq) (fun i => (hspot' i).trans (hspot i))
      fun i hi => hcb i ((hcb' i).mp hi)
  | resting f hobj hsaved hstate hq hended hspot hcb =>
    exact .resting f (hobj'.trans hobj) hsaved hstate (hq' ▸ hq) (hq' ▸ hended)
      (fun i => (hspot' i).trans (hspot i)) fun i hi => hcb i ((hcb' i).mp hi)
  | retained i f hobj hq hspot hcb =>
    exact .retained i f (hobj'.trans hobj) (hq'.trans hq) (fun i => (hspot' i).trans (hspot i))
      fun j => (hcb' j).trans (hcb j)
  | owned i spot f hobj hok hspot hcb =>
    refine .owned i spot f (hobj'.trans hobj) (hq' ▸ hok) (fun j => ?_) fun j =>
      (hcb' j).trans (hcb j)
    rw [hspot']
    exact hspot j

theorem sameAt_setFiber (s : Pool φ ι) {g fiber : Nat} (hne : fiber ≠ g) (f : Fiber φ) :
    SameAt s (s.setFiber g f) fiber :=
  ⟨Function.update_of_ne hne _ _, rfl, fun _ => rfl, fun _ => Iff.rfl⟩

theorem queued_push (s : Pool φ ι) (ft : FiberAndThread φ Nat ι) (fiber : Nat) :
    (s.push ft).queued fiber = s.queued fiber + if ft.task.isFiber fiber then 1 else 0 := by
  unfold queued push
  rw [List.countP_append, List.countP_singleton]

theorem sameAt_push (s : Pool φ ι) {ft : FiberAndThread φ Nat ι} {fiber : Nat}
    (hft : ft.task.isFiber fiber = false) : SameAt s (s.push ft) fiber :=
  ⟨rfl, by rw [queued_push, hft]; rfl, fun _ => rfl, fun _ => Iff.rfl⟩

section

variable [DecidableEq ι]

theorem spot_goto (s : Pool φ ι) (i : ι) (pc : Pc φ ι) (fiber : Nat) (j : ι) :
    ((s.goto i pc).pc j).spot fiber = if j = i then pc.spot fiber else (s.pc j).spot fiber := by
  show (Function.update s.pc i pc j).spot fiber = _
  by_cases hj : j = i
  · rw [hj, Function.update_self, if_pos rfl]
  · rw [Function.update_of_ne hj, if_neg hj]

theorem sameAt_goto (s : Pool φ ι) {i : ι} {pc : Pc φ ι} {fiber : Nat}
    (hspot : pc.spot fiber = (s.pc i).spot fiber) : SameAt s (s.goto i pc) fiber := by
  refine ⟨rfl, rfl, fun j => ?_, fun _ => Iff.rfl⟩
  rw [spot_goto]
  split
  · rename_i hj
    rw [hj, hspot]
  · rfl

theorem sameAt_setCbFiber (s : Pool φ ι) {i : ι} {o : Option Nat} {fiber : Nat}
    (hold : s.cb_fiber i ≠ some fiber) (hnew : o ≠ some fiber) :
    SameAt s (s.setCbFiber i o) fiber := by
  refine ⟨rfl, rfl, fun _ => rfl, fun j => ?_⟩
  show Function.update s.cb_fiber i o j = some fiber ↔ _
  by_cases hj : j = i
  · rw [hj, Function.update_self]
    exact iff_of_false hnew hold
  · rw [Function.update_of_ne hj]

end

/-! ## The fiber of a step -/

theorem on_of_spot {pc : Pc φ ι} {fiber : Nat} {own : Bool} {stage : Stage}
    (h : pc.spot fiber = some (.at own stage)) :
    ∃ ft, pc = .on ft fiber stage ∧ ft.task.isCb = own := by
  cases pc with
  | scanning | idle => cases h
  | holding ft =>
    simp only [Pc.spot] at h
    split at h <;> cases h
  | on ft f stage' =>
    simp only [Pc.spot] at h
    split at h
    · rename_i heq
      cases h
      exact ⟨ft, by rw [heq], rfl⟩
    · cases h

/-- What is known of the fiber that a worker holds or runs. -/
theorem FiberOk.of_spot {s : Pool φ ι} {fiber : Nat} (h : FiberOk s fiber) {i : ι} {spot : Spot}
    (hi : (s.pc i).spot fiber = some spot) : ∃ f, s.heap fiber = some f ∧
      SpotOk f (s.queued fiber) spot ∧ (∀ j, j ≠ i → (s.pc j).spot fiber = none) ∧
      ∀ j, s.cb_fiber j = some fiber ↔ j = i ∧ spot.own = true := by
  have hnone : ¬∀ j, (s.pc j).spot fiber = none := fun hall => by
    rw [hall i] at hi
    cases hi
  cases h with
  | absent hobj hq hspot hcb => exact absurd hspot hnone
  | resting f hobj hsaved hstate hq hended hspot hcb => exact absurd hspot hnone
  | retained i f hobj hq hspot hcb => exact absurd hspot hnone
  | owned k spot' f hobj hok hspot hcb =>
    rcases hspot i with ⟨hs, rfl⟩ | ⟨hs, -⟩
    · rw [hs] at hi
      cases hi
      refine ⟨f, hobj, hok, fun j hj => ?_, hcb⟩
      exact (hspot j).elim (fun hjk => absurd hjk.2 hj) fun hjk => hjk.1
    · rw [hs] at hi
      cases hi

section

variable [DecidableEq ι] {s s' : Pool φ ι} {fiber : Nat} {i : ι}

/-- The worker has the fiber at a new point. -/
theorem FiberOk.to_spot {f : Fiber φ} (hobj : s'.heap fiber = some f) {pc : Pc φ ι} {spot : Spot}
    (hpc : s'.pc = Function.update s.pc i pc) (hspot : pc.spot fiber = some spot)
    (hok : SpotOk f (s'.queued fiber) spot)
    (hother : ∀ j, j ≠ i → (s.pc j).spot fiber = none)
    (hcb : ∀ j, s'.cb_fiber j = some fiber ↔ j = i ∧ spot.own = true) : FiberOk s' fiber := by
  refine .owned i spot f hobj hok (fun j => ?_) hcb
  rw [hpc]
  by_cases hj : j = i
  · rw [hj, Function.update_self]
    exact .inl ⟨hspot, rfl⟩
  · rw [Function.update_of_ne hj]
    exact .inr ⟨hother j hj, hj⟩

/-- The worker is done with the fiber. -/
theorem spot_none (pc : Pc φ ι) (hpc : s'.pc = Function.update s.pc i pc)
    (hspot : pc.spot fiber = none) (hother : ∀ j, j ≠ i → (s.pc j).spot fiber = none) (j : ι) :
    (s'.pc j).spot fiber = none := by
  rw [hpc]
  by_cases hj : j = i
  · rw [hj, Function.update_self]
    exact hspot
  · rw [Function.update_of_ne hj]
    exact hother j hj

end

/-! ## The steps -/

section

variable [DecidableEq ι] {s : Pool φ ι} {i : ι} {ft : FiberAndThread φ Nat ι} {g : Nat}
  {stage : Stage}

omit [DecidableEq ι] in
theorem spot_on (hpc : s.pc i = .on ft g stage) :
    (s.pc i).spot g = some (.at ft.task.isCb stage) := by
  rw [hpc]
  exact if_pos rfl

omit [DecidableEq ι] in
theorem spot_on_ne (hpc : s.pc i = .on ft g stage) {fiber : Nat} (hne : fiber ≠ g) :
    (s.pc i).spot fiber = none := by
  rw [hpc]
  exact if_neg (Ne.symm hne)

/-- The worker goes on with its fiber. -/
theorem ok_advance (h : ∀ fiber, FiberOk s fiber) (hpc : s.pc i = .on ft g stage) {f : Fiber φ}
    (hf : s.heap g = some f) (f' : Fiber φ) (stage' : Stage)
    (hok : SpotOk f (s.queued g) (.at ft.task.isCb stage) →
      SpotOk f' (s.queued g) (.at ft.task.isCb stage')) (fiber : Nat) :
    FiberOk ((s.setFiber g f').goto i (.on ft g stage')) fiber := by
  by_cases hfg : fiber = g
  · subst hfg
    obtain ⟨f₀, hobj, hspot, hother, hcb⟩ := (h fiber).of_spot (spot_on hpc)
    rw [hf] at hobj
    cases hobj
    exact .to_spot (s := s) (Function.update_self ..) rfl (if_pos rfl) (hok hspot) hother hcb
  · refine (h fiber).congr ((sameAt_setFiber s hfg f').trans (sameAt_goto _ ?_))
    exact (if_neg (Ne.symm hfg)).trans (spot_on_ne hpc hfg).symm

omit [DecidableEq ι] in
theorem setFiber_self {f : Fiber φ} (hf : s.heap g = some f) : s.setFiber g f = s := by
  rw [setFiber, ← hf, Function.update_eq_self]

/-- The worker leaves its fiber, and drops its `cb_fiber` if that is the fiber. -/
theorem ok_release (h : ∀ fiber, FiberOk s fiber) (hpc : s.pc i = .on ft g stage) {f : Fiber φ}
    (hf : s.heap g = some f) (f' : Fiber φ) (s' : Pool φ ι)
    (hheap : s'.heap = Function.update s.heap g (some f'))
    (hpc' : s'.pc = s.pc)
    (hcb : ft.task.isCb = true → s'.cb_fiber = Function.update s.cb_fiber i none)
    (hcb' : ft.task.isCb = false → s'.cb_fiber = s.cb_fiber)
    (hqueued : ∀ fiber, fiber ≠ g → s'.queued fiber = s.queued fiber)
    (hok : SpotOk f (s.queued g) (.at ft.task.isCb stage) → f'.saved = true ∧ f'.m_state ≠ .EXEC ∧
      s'.queued g ≤ 1 ∧ (f'.m_state.ended = true → s'.queued g = 0)) (fiber : Nat) :
    FiberOk (s'.goto i .scanning) fiber := by
  obtain ⟨f₀, hobj, hspot, hother, hown⟩ := (h g).of_spot (spot_on hpc)
  rw [hf] at hobj
  cases hobj
  by_cases hfg : fiber = g
  · subst hfg
    obtain ⟨hsaved, hstate, hq, hended⟩ := hok hspot
    refine .resting f' ((congrFun hheap fiber).trans (Function.update_self ..)) hsaved hstate hq
      hended (spot_none (s := s) .scanning (by rw [goto, hpc']) rfl hother) fun j hj => ?_
    change s'.cb_fiber j = some fiber at hj
    cases htask : ft.task.isCb with
    | true =>
      rw [hcb htask] at hj
      by_cases hji : j = i
      · rw [hji, Function.update_self] at hj
        cases hj
      · rw [Function.update_of_ne hji] at hj
        exact hji ((hown j).mp hj).1
    | false =>
      rw [hcb' htask] at hj
      have hno := ((hown j).mp hj).2
      rw [Spot.own, htask] at hno
      cases hno
  · have hsame : SameAt s s' fiber := by
      refine ⟨?_, hqueued fiber hfg, fun j => by rw [hpc'], fun j => ?_⟩
      · rw [hheap, Function.update_of_ne hfg]
      · cases htask : ft.task.isCb with
        | false => rw [hcb' htask]
        | true =>
          have hcbi : s.cb_fiber i = some g := (hown i).mpr ⟨rfl, htask⟩
          rw [hcb htask]
          exact (sameAt_setCbFiber s (by simp [hcbi, Ne.symm hfg]) (by simp)).cb j
    refine (h fiber).congr (hsame.trans (sameAt_goto s' ?_))
    rw [hpc']
    exact (spot_on_ne hpc hfg).symm

/-- A scan takes a fiber that every worker has finished with. -/
theorem ok_take (h : ∀ fiber, FiberOk s fiber) (hpc : s.pc i = .scanning)
    (hft : (s.scan i).ft = some ft) (hset : Settled s (.scan i)) (fiber : Nat) :
    FiberOk (({ s with m_fibers := (s.scan i).m_fibers }.countActive 1).goto i (.holding ft))
      fiber := by
  obtain ⟨l, r, hq, hrest, hexec, -⟩ := scan_some hft
  have hcount : s.queued fiber = (l ++ r).countP (fun ft => ft.task.isFiber fiber) +
      if ft.task.isFiber fiber then 1 else 0 := by
    rw [queued, hq, List.countP_append, List.countP_cons, List.countP_append]
    omega
  have hqueued : ∀ pc, (({ s with m_fibers := (s.scan i).m_fibers }.countActive 1).goto i
      pc).queued fiber = (l ++ r).countP (fun ft => ft.task.isFiber fiber) :=
    fun _ => congrArg (List.countP _) hrest
  cases hfiber : ft.task.isFiber fiber with
  | false =>
    rw [hfiber] at hcount
    refine (h fiber).congr ⟨rfl, (hqueued _).trans hcount.symm, fun j => ?_, fun _ => Iff.rfl⟩
    refine (sameAt_goto s ?_).spot j
    rw [hpc]
    exact if_neg (by simp [hfiber])
  | true =>
    have htask := Task.eq_of_isFiber hfiber
    rw [hfiber, if_pos rfl] at hcount
    cases h fiber with
    | absent hobj hzero hspot hcb => omega
    | retained k f hobj hzero hspot hcb => omega
    | resting f hobj hsaved hstate hle hended hspot hcb =>
      refine .to_spot (s := s) hobj rfl (if_pos hfiber) ⟨hsaved, hstate, ?_, ?_⟩
        (fun j _ => hspot j) fun j => ?_
      · cases hend : f.m_state.ended with
        | false => rfl
        | true =>
          have := hended hend
          omega
      · have hnew := hqueued (.holding ft)
        omega
      · exact iff_of_false (hcb j) (by simp [Spot.own])
    | owned k spot f hobj hok hspot hcb =>
      exfalso
      obtain ⟨hk, -⟩ := (hspot k).resolve_right fun hn => hn.2 rfl
      have hnot := hset ft fiber hft htask k
      cases spot with
      | held =>
        have := hok.2.2.2
        omega
      | «at» own stage =>
        obtain ⟨ft', hkpc, -⟩ := on_of_spot hk
        rw [hkpc] at hnot
        cases stage with
        | leaving | returned | deciding | settling => exact hnot rfl
        | entering =>
          have := hok.2.2.2
          omega
        | requeueing =>
          have := hok.2.2
          omega
        | executing =>
          rw [htask] at hexec
          have hex : s.exec fiber = true := by
            rw [exec, hobj]
            exact decide_eq_true hok.1
          exact absurd hex (Bool.eq_false_iff.mp hexec)

omit [DecidableEq ι] in
theorem ok_make (h : ∀ fiber, FiberOk s fiber) (hnew : s.heap g = none) (cb : φ) (fiber : Nat) :
    FiberOk (s.setFiber g (.make cb)) fiber := by
  by_cases hfg : fiber = g
  · subst hfg
    cases h fiber with
    | absent hobj hq hspot hcb =>
      refine .resting (.make cb) (Function.update_self ..) rfl (by simp [Fiber.make]) ?_
        (fun _ => hq) hspot hcb
      exact Nat.le_trans (Nat.le_of_eq hq) (Nat.zero_le 1)
    | resting f hobj | retained k f hobj | owned k spot f hobj =>
      rw [hnew] at hobj
      cases hobj
  · exact (h fiber).congr (sameAt_setFiber s hfg _)

omit [DecidableEq ι] in
theorem ok_schedule (h : ∀ fiber, FiberOk s fiber) (hone : OneEntry s (.schedule ft))
    (fiber : Nat) : FiberOk (s.push ft) fiber := by
  cases hfiber : ft.task.isFiber fiber with
  | false => exact (h fiber).congr (sameAt_push s hfiber)
  | true =>
    obtain ⟨⟨⟨f₀, hobj₀, hended₀⟩, halive⟩, hout⟩ := hone fiber (Task.eq_of_isFiber hfiber)
    have hzero : s.queued fiber = 0 := Nat.eq_zero_of_not_pos fun hpos => hout (.inl hpos)
    have hready : f₀.m_state ≠ .READY := fun hr => hout (.inr (.inl ⟨f₀, hobj₀, hr⟩))
    have hqueued : (s.push ft).queued fiber = 1 := by
      rw [queued_push, hzero, hfiber]
      rfl
    cases h fiber with
    | absent hobj =>
      rw [hobj] at hobj₀
      cases hobj₀
    | resting f hobj hsaved hstate hq hended hspot hcb =>
      rw [hobj] at hobj₀
      cases hobj₀
      refine .resting f₀ hobj hsaved hstate (Nat.le_of_eq hqueued) (fun hend => ?_) hspot hcb
      rw [hended₀] at hend
      cases hend
    | retained k f hobj hq hspot hcb =>
      have hsome := halive k ((hcb k).mpr rfl)
      rw [hspot k] at hsome
      cases hsome
    | owned k spot f hobj hok hspot hcb =>
      have hf : f = f₀ := Option.some.inj (hobj.symm.trans hobj₀)
      subst hf
      refine .owned k spot f hobj ?_ hspot hcb
      have hkspot := ((hspot k).resolve_right fun hn => hn.2 rfl).1
      have hyield : Yielded f (s.queued fiber) → Yielded f 1 := by
        rintro (hy | ⟨hr | hend, -⟩)
        · exact .inl ⟨hy.1, Nat.le_refl 1⟩
        · exact absurd hr hready
        · rw [hended₀] at hend
          cases hend
      rw [hqueued]
      cases spot with
      | held => exact absurd (.inr (.inr ⟨k, .inl hkspot⟩)) hout
      | «at» own stage =>
        cases stage with
        | entering => exact absurd (.inr (.inr ⟨k, .inr ⟨own, hkspot⟩⟩)) hout
        | requeueing => exact absurd hok.2.1 hready
        | executing => exact ⟨hok.1, Nat.le_refl 1⟩
        | leaving => exact hyield hok
        | returned | deciding => exact ⟨hok.1, hyield hok.2⟩
        | settling => exact ⟨hok.1, hok.2.1, Nat.le_refl 1⟩

/-- The worker holds an entry for a fiber, and swaps that fiber in. -/
theorem ok_chooseFiber (h : ∀ fiber, FiberOk s fiber) (hpc : s.pc i = .holding ft)
    (htask : ft.task = .fiber g) (fiber : Nat) :
    FiberOk (s.goto i (.on ft g .entering)) fiber := by
  have hspot : ∀ fiber, (s.pc i).spot fiber = if g = fiber then some .held else none := by
    intro fiber
    rw [hpc, Pc.spot, htask, Task.isFiber]
    simp only [decide_eq_true_eq]
  by_cases hfg : fiber = g
  · subst hfg
    obtain ⟨f, hobj, hok, hother, hcb⟩ := (h fiber).of_spot ((hspot fiber).trans (if_pos rfl))
    refine .to_spot (s := s) hobj rfl (if_pos rfl) hok hother fun j => (hcb j).trans ?_
    rw [htask]
    rfl
  · refine (h fiber).congr (sameAt_goto s ?_)
    rw [hspot, if_neg (Ne.symm hfg)]
    exact if_neg (Ne.symm hfg)

/-- The worker puts a callback on its `cb_fiber`. -/
theorem ok_reuse (h : ∀ fiber, FiberOk s fiber) (hpc : s.pc i = .holding ft) {cb : φ}
    (htask : ft.task = .cb cb) (hcbi : s.cb_fiber i = some g) {f f' : Fiber φ}
    (hreset : f.reset (some cb) = some f') (fiber : Nat) :
    FiberOk ((s.setFiber g f').goto i (.on ft g .entering)) fiber := by
  have hspot : ∀ fiber, (s.pc i).spot fiber = none := by
    intro fiber
    rw [hpc, Pc.spot, htask]
    rfl
  by_cases hfg : fiber = g
  · subst hfg
    cases h fiber with
    | absent hobj hq hno hcb => exact absurd hcbi (hcb i)
    | resting f hobj hsaved hstate hq hended hno hcb => exact absurd hcbi (hcb i)
    | retained k f hobj hq hno hcb =>
      obtain rfl := (hcb i).mp hcbi
      refine .to_spot (s := s) (Function.update_self ..) rfl (if_pos rfl) ?_ (fun j _ => hno j)
        fun j => (hcb j).trans ?_
      · obtain ⟨-, rfl⟩ := Fiber.reset_eq_some.mp hreset
        exact ⟨rfl, by simp, rfl, hq⟩
      · rw [htask]
        exact (and_iff_left rfl).symm
    | owned k spot f hobj hok hno hcb =>
      obtain ⟨rfl, -⟩ := (hcb i).mp hcbi
      obtain ⟨hsome, -⟩ := (hno i).resolve_right fun hn => hn.2 rfl
      rw [hspot fiber] at hsome
      cases hsome
  · refine (h fiber).congr ((sameAt_setFiber s hfg f').trans (sameAt_goto _ ?_))
    exact (if_neg (Ne.symm hfg)).trans (hspot fiber).symm

/-- The worker makes a fiber for a callback. -/
theorem ok_fresh (h : ∀ fiber, FiberOk s fiber) (hpc : s.pc i = .holding ft) {cb : φ}
    (htask : ft.task = .cb cb) (hcbi : s.cb_fiber i = none) (hnew : s.heap g = none)
    (fiber : Nat) : FiberOk (((s.setFiber g (.make cb)).setCbFiber i (some g)).goto i
      (.on ft g .entering)) fiber := by
  have hspot : ∀ fiber, (s.pc i).spot fiber = none := by
    intro fiber
    rw [hpc, Pc.spot, htask]
    rfl
  by_cases hfg : fiber = g
  · subst hfg
    cases h fiber with
    | absent hobj hq hno hcb =>
      refine .to_spot (s := s) (Function.update_self ..) rfl (if_pos rfl)
        ⟨rfl, by simp [Fiber.make], rfl, hq⟩ (fun j _ => hno j) fun j => ?_
      show Function.update s.cb_fiber i (some fiber) j = some fiber ↔ _
      rw [htask]
      by_cases hj : j = i
      · rw [hj, Function.update_self]
        exact iff_of_true rfl ⟨rfl, rfl⟩
      · rw [Function.update_of_ne hj]
        exact iff_of_false (hcb j) fun hn => hj hn.1
    | resting f hobj | retained k f hobj | owned k spot f hobj =>
      rw [hnew] at hobj
      cases hobj
  · refine (h fiber).congr (((sameAt_setFiber s hfg _).trans (sameAt_setCbFiber _ ?_ ?_)).trans
      (sameAt_goto _ ?_))
    · show s.cb_fiber i ≠ some fiber
      rw [hcbi]
      simp
    · simp [Ne.symm hfg]
    · exact (if_neg (Ne.symm hfg)).trans (hspot fiber).symm

/-- The worker keeps its `cb_fiber` for the next callback. -/
theorem ok_endCb (h : ∀ fiber, FiberOk s fiber) (hpc : s.pc i = .on ft g .deciding) {f f' : Fiber φ}
    (hf : s.heap g = some f) (hstate : f.m_state.ended = true) {cb : φ} (htask : ft.task = .cb cb)
    (fiber : Nat) : FiberOk ((s.setFiber g f').goto i .scanning) fiber := by
  by_cases hfg : fiber = g
  · subst hfg
    obtain ⟨f₀, hobj, hok, hother, hcb⟩ := (h fiber).of_spot (spot_on hpc)
    rw [hf] at hobj
    cases hobj
    refine .retained i f' (Function.update_self ..) ?_ (spot_none (s := s) .scanning rfl rfl hother)
      fun j => ?_
    · rcases hok.2 with ⟨hhold, -⟩ | ⟨-, hq⟩
      · rw [hhold] at hstate
        cases hstate
      · exact hq
    · apply (hcb j).trans
      rw [htask]
      exact and_iff_left rfl
  · refine (h fiber).congr ((sameAt_setFiber s hfg f').trans (sameAt_goto _ ?_))
    exact (spot_on_ne hpc hfg).symm

theorem cb_dropCbFiber (s : Pool φ ι) (i : ι) (task : Task φ Nat) :
    (task.isCb = true → (s.dropCbFiber i task).cb_fiber = Function.update s.cb_fiber i none) ∧
      (task.isCb = false → (s.dropCbFiber i task).cb_fiber = s.cb_fiber) := by
  cases task with
  | cb cb => exact ⟨fun _ => rfl, fun hf => by cases hf⟩
  | fiber f => exact ⟨(fun hf => by cases hf), fun _ => rfl⟩

/-- **Step lemma.** -/
theorem Step.fiberOk {s' : Pool φ ι} {l : Move φ ι} (hstep : Step s l s')
    (h : ∀ fiber, FiberOk s fiber) (hone : OneEntry s l) (hset : Settled s l) (fiber : Nat) :
    FiberOk s' fiber := by
  cases hstep with
  | make hnew cb => exact ok_make h hnew cb fiber
  | schedule ft => exact ok_schedule h hone fiber
  | take hpc hft => exact ok_take h hpc hft hset fiber
  | pass hpc hft =>
    refine (h fiber).congr (sameAt_goto s ?_)
    rw [hpc]
    rfl
  | chooseFiber hpc htask hf hstate => exact ok_chooseFiber h hpc htask fiber
  | @discard i ft hpc g htask f hf hstate =>
    have hheld : (s.pc i).spot g = some .held := by
      rw [hpc, Pc.spot, htask]
      exact if_pos (decide_eq_true rfl)
    obtain ⟨f₀, hobj, hok, -⟩ := (h g).of_spot hheld
    rw [hf] at hobj
    cases hobj
    rw [hok.2.2.1] at hstate
    cases hstate
  | reuse hpc htask hcb hf hreset => exact ok_reuse h hpc htask hcb hreset fiber
  | fresh hpc htask hcb hnew => exact ok_fresh h hpc htask hcb hnew fiber
  | swapIn hpc hf hswap =>
    refine ok_advance h hpc hf _ _ (fun hok => ?_) fiber
    obtain ⟨-, rfl⟩ := Fiber.swapIn_eq_some.mp hswap
    exact ⟨rfl, by rw [hok.2.2.2]; exact Nat.zero_le 1⟩
  | @yield i ft g hpc f hf ready =>
    refine ok_advance h hpc hf _ _ (fun hok => ?_) fiber
    cases ready with
    | false => exact .inl ⟨rfl, hok.2⟩
    | true =>
      refine .inr ⟨.inl rfl, Nat.eq_zero_of_not_pos fun hpos => ?_⟩
      exact hone ft g hpc (.inl hpos)
  | @finish i ft g hpc f hf thrown =>
    refine ok_advance h hpc hf _ _ (fun hok => ?_) fiber
    refine .inr ⟨.inr ?_, Nat.eq_zero_of_not_pos fun hpos => hone ft g hpc (.inl hpos)⟩
    cases thrown <;> rfl
  | swapOut hpc hf =>
    refine ok_advance h hpc hf _ _ (fun hok => ?_) fiber
    exact ⟨rfl, hok⟩
  | @decrement i ft g hpc =>
    obtain ⟨f, hf, -⟩ := (h g).of_spot (spot_on hpc)
    have hok := ok_advance h hpc hf f .deciding (fun hok => hok) fiber
    rw [setFiber_self hf] at hok
    exact hok.congr ⟨rfl, rfl, fun _ => rfl, fun _ => Iff.rfl⟩
  | @ready i ft g hpc f hf hstate =>
    have hok := ok_advance h hpc hf f .requeueing (fun hok => ?_) fiber
    · rwa [setFiber_self hf] at hok
    · refine ⟨hok.1, hstate, ?_⟩
      rcases hok.2 with ⟨hhold, -⟩ | ⟨-, hq⟩
      · rw [hstate] at hhold
        cases hhold
      · exact hq
  | @endFiber i ft g hpc f hf hstate htask =>
    have hcb : ft.task.isCb = false := by rw [htask]; rfl
    refine ok_release h hpc hf f s ?_ rfl (fun ht => ?_) (fun _ => rfl)
      (fun _ _ => rfl) (fun hok => ?_) fiber
    · exact (congrArg heap (setFiber_self hf)).symm
    · rw [hcb] at ht
      cases ht
    · rcases hok.2 with ⟨hhold, -⟩ | ⟨-, hq⟩
      · rw [hhold] at hstate
        cases hstate
      · refine ⟨hok.1, fun hex => ?_, Nat.le_trans (Nat.le_of_eq hq) (Nat.zero_le 1), fun _ => hq⟩
        rw [hex] at hstate
        cases hstate
  | endCb hpc hf hstate htask hreset => exact ok_endCb h hpc hf hstate htask fiber
  | @hold i ft g hpc f hf hready hstate =>
    have hok := ok_advance h hpc hf f .settling (fun hok => ?_) fiber
    · rwa [setFiber_self hf] at hok
    · rcases hok.2 with ⟨hhold, hq⟩ | ⟨hr | hend, -⟩
      · exact ⟨hok.1, hhold, hq⟩
      · exact absurd hr hready
      · rw [hstate] at hend
        cases hend
  | @requeue i ft g hpc =>
    obtain ⟨f, hf, -⟩ := (h g).of_spot (spot_on hpc)
    obtain ⟨hheap, hpcs, hq, -⟩ := dropCbFiber_frame (s.push ⟨.fiber g, none⟩) i ft.task
    obtain ⟨hcb, hcb'⟩ := cb_dropCbFiber (s.push ⟨.fiber g, none⟩) i ft.task
    have hqueued : ∀ k, ((s.push ⟨.fiber g, none⟩).dropCbFiber i ft.task).queued k =
        s.queued k + if (Task.fiber g : Task φ Nat).isFiber k then 1 else 0 := fun k =>
      (congrArg (List.countP _) hq).trans (queued_push s ⟨.fiber g, none⟩ k)
    refine ok_release h hpc hf f _ ?_ hpcs hcb hcb' (fun k hk => ?_) (fun hok => ?_) fiber
    · exact hheap.trans (congrArg heap (setFiber_self hf)).symm
    · rw [hqueued, Task.isFiber, decide_eq_false (Ne.symm hk)]
      rfl
    · refine ⟨hok.1, by simp [hok.2.1], ?_, fun hend => ?_⟩
      · rw [hqueued, hok.2.2]
        split <;> omega
      · rw [hok.2.1] at hend
        cases hend
  | @settle i ft g hpc f hf =>
    obtain ⟨hheap, hpcs, hq, -⟩ :=
      dropCbFiber_frame (s.setFiber g { f with m_state := .HOLD }) i ft.task
    obtain ⟨hcb, hcb'⟩ := cb_dropCbFiber (s.setFiber g { f with m_state := .HOLD }) i ft.task
    have hqueued : ∀ k,
        ((s.setFiber g { f with m_state := .HOLD }).dropCbFiber i ft.task).queued k = s.queued k :=
      fun k => congrArg (List.countP _) hq
    refine ok_release h hpc hf { f with m_state := .HOLD } _ hheap hpcs hcb hcb'
      (fun k _ => hqueued k) (fun hok => ?_) fiber
    rw [hqueued]
    exact ⟨hok.1, by simp, hok.2.2, fun hend => by cases hend⟩
  | wake hpc =>
    refine (h fiber).congr (sameAt_goto s ?_)
    rw [hpc]
    rfl

end

/-! ## Runs -/

theorem fiberOk_init (fiber : Nat) : FiberOk (init : Pool φ ι) fiber :=
  .absent rfl rfl (fun _ => rfl) fun _ h => by cases h

theorem fiberOk_of_settled [DecidableEq ι] (ls : List (Move φ ι)) {s : Pool φ ι}
    (h : Run (Guard (fun u l => OneEntry u l ∧ Settled u l) Step) init ls s) (fiber : Nat) :
    FiberOk s fiber := by
  refine h.invariant (I := fun s => ∀ fiber, FiberOk s fiber) ?_ fiberOk_init fiber
  rintro u l v hu ⟨⟨hone, hset⟩, hstep⟩
  exact hstep.fiberOk hu hone hset

end Pool

end Captain.Scheduler
