import Captain.Timer.Deadlines
import Captain.Transition
import Mathlib.Logic.Function.Basic

/-!
# The timer manager between threads

Threads call the operations of one `TimerManager`; a label is one section under the lock, one
clock reading outside of it, or one call of `onTimerInsertedAtFront`. `cancel`, `refresh`,
`reset` and `getNextTimer` are one section each. `addTimer` builds the timer first, which reads
the clock, and inserts it later. `listExpiredCb` reads the clock, tests the set for emptiness
under the read lock, and makes its pass under the write lock.

* `expirePass_safe_iff`: the pass dereferences the end iterator exactly when no rollover is
  detected and the set was emptied behind the test of its call and not filled since.
-/

namespace Captain.TimerManager

open OrderedSet Transition

variable {φ ω ι : Type}

/-- Where a thread stands in its call. -/
inductive Pc (φ ω : Type)
  | idle
  | constructed (t : Nat) (ms : UInt64) (cb : Option (Callback φ ω)) (recurring : Bool)
      (now : UInt64)
  | announcing
  | listing (now_ms : UInt64)
  | expiring (now_ms : UInt64)
  deriving DecidableEq

/-- The clock reading with which a thread is to make its pass. -/
def Pc.reading : Pc φ ω → Option UInt64
  | .expiring now_ms => some now_ms
  | _ => none

inductive Label (φ ω ι : Type)
  | tick (now : UInt64)
  | construct (i : ι) (t : Nat) (ms : UInt64) (cb : Option (Callback φ ω)) (recurring : Bool)
  | insert (i : ι)
  | announce (i : ι)
  | cancel (i : ι) (t : Nat)
  | refresh (i : ι) (t : Nat)
  | reset (i : ι) (t : Nat) (ms : UInt64) (from_now : Bool)
  | getNextTimer (i : ι)
  | readClock (i : ι)
  | test (i : ι)
  | pass (i : ι) (now_timer : Nat)

structure Threads (φ ω ι : Type) where
  mgr : TimerManager φ ω
  pc : ι → Pc φ ω
  clock : UInt64

namespace Threads

variable [DecidableEq ι]

def init (now : UInt64) : Threads φ ω ι := ⟨new now, fun _ => .idle, now⟩

def goto (s : Threads φ ω ι) (mgr : TimerManager φ ω) (i : ι) (p : Pc φ ω) : Threads φ ω ι :=
  { s with mgr := mgr, pc := Function.update s.pc i p }

/-- After a section that ends in `addTimer(val, lock)`. -/
def atFront (at_front : Bool) : Pc φ ω := if at_front then .announcing else .idle

/-- One step of one thread, or of the clock. A new timer has an address of its own, and the other
calls are made on existing timers. -/
inductive Step : Threads φ ω ι → Label φ ω ι → Threads φ ω ι → Prop
  | tick (s : Threads φ ω ι) (now : UInt64) : Step s (.tick now) { s with clock := now }
  | construct {s : Threads φ ω ι} {i : ι} (hpc : s.pc i = .idle) (t : Nat) (ms : UInt64)
      (cb : Option (Callback φ ω)) (recurring : Bool) :
      Step s (.construct i t ms cb recurring)
        (s.goto s.mgr i (.constructed t ms cb recurring s.clock))
  | insert {s : Threads φ ω ι} {i : ι} {t : Nat} {ms : UInt64} {cb : Option (Callback φ ω)}
      {recurring : Bool} {now : UInt64} (hpc : s.pc i = .constructed t ms cb recurring now)
      (ht : s.mgr.heap t = none) {m : TimerManager φ ω} {at_front : Bool}
      (hrun : s.mgr.addTimer t ms cb recurring now = (m, at_front)) :
      Step s (.insert i) (s.goto m i (atFront at_front))
  | announce {s : Threads φ ω ι} {i : ι} (hpc : s.pc i = .announcing) :
      Step s (.announce i) (s.goto s.mgr i .idle)
  | cancel {s : Threads φ ω ι} {i : ι} (hpc : s.pc i = .idle) {t : Nat}
      (ht : (s.mgr.heap t).isSome) {m : TimerManager φ ω} {b : Bool}
      (hrun : s.mgr.cancel t = .ok (m, b)) : Step s (.cancel i t) (s.goto m i .idle)
  | refresh {s : Threads φ ω ι} {i : ι} (hpc : s.pc i = .idle) {t : Nat}
      (ht : (s.mgr.heap t).isSome) {m : TimerManager φ ω} {b : Bool}
      (hrun : s.mgr.refresh t s.clock = .ok (m, b)) : Step s (.refresh i t) (s.goto m i .idle)
  | reset {s : Threads φ ω ι} {i : ι} (hpc : s.pc i = .idle) {t : Nat}
      (ht : (s.mgr.heap t).isSome) {ms : UInt64} {from_now : Bool} {m : TimerManager φ ω}
      {b at_front : Bool} (hrun : s.mgr.reset t ms from_now s.clock = .ok (m, b, at_front)) :
      Step s (.reset i t ms from_now) (s.goto m i (atFront at_front))
  | getNextTimer {s : Threads φ ω ι} {i : ι} (hpc : s.pc i = .idle) :
      Step s (.getNextTimer i) (s.goto (s.mgr.getNextTimer s.clock).1 i .idle)
  | readClock {s : Threads φ ω ι} {i : ι} (hpc : s.pc i = .idle) :
      Step s (.readClock i) (s.goto s.mgr i (.listing s.clock))
  | test {s : Threads φ ω ι} {i : ι} {now_ms : UInt64} (hpc : s.pc i = .listing now_ms) :
      Step s (.test i) (s.goto s.mgr i (if s.mgr.isEmpty then .idle else .expiring now_ms))
  | pass {s : Threads φ ω ι} {i : ι} {now_ms : UInt64} (hpc : s.pc i = .expiring now_ms)
      {now_timer : Nat} {m : TimerManager φ ω} {expired : List Nat}
      {cbs : List (Option (Callback φ ω))}
      (hrun : s.mgr.expirePass now_ms now_timer = .ok (m, expired, cbs)) :
      Step s (.pass i now_timer) (s.goto m i .idle)

/-- The steps, computed. -/
def next (s : Threads φ ω ι) : Label φ ω ι → Option (Threads φ ω ι)
  | .tick now => some { s with clock := now }
  | .construct i t ms cb recurring =>
    match s.pc i with
    | .idle => some (s.goto s.mgr i (.constructed t ms cb recurring s.clock))
    | _ => none
  | .insert i =>
    match s.pc i with
    | .constructed t ms cb recurring now =>
      if (s.mgr.heap t).isNone then
        some (s.goto (s.mgr.addTimer t ms cb recurring now).1 i
          (atFront (s.mgr.addTimer t ms cb recurring now).2))
      else none
    | _ => none
  | .announce i =>
    match s.pc i with
    | .announcing => some (s.goto s.mgr i .idle)
    | _ => none
  | .cancel i t =>
    match s.pc i, s.mgr.heap t, s.mgr.cancel t with
    | .idle, some _, .ok (m, _) => some (s.goto m i .idle)
    | _, _, _ => none
  | .refresh i t =>
    match s.pc i, s.mgr.heap t, s.mgr.refresh t s.clock with
    | .idle, some _, .ok (m, _) => some (s.goto m i .idle)
    | _, _, _ => none
  | .reset i t ms from_now =>
    match s.pc i, s.mgr.heap t, s.mgr.reset t ms from_now s.clock with
    | .idle, some _, .ok (m, _, at_front) => some (s.goto m i (atFront at_front))
    | _, _, _ => none
  | .getNextTimer i =>
    match s.pc i with
    | .idle => some (s.goto (s.mgr.getNextTimer s.clock).1 i .idle)
    | _ => none
  | .readClock i =>
    match s.pc i with
    | .idle => some (s.goto s.mgr i (.listing s.clock))
    | _ => none
  | .test i =>
    match s.pc i with
    | .listing now_ms => some (s.goto s.mgr i (if s.mgr.isEmpty then .idle else .expiring now_ms))
    | _ => none
  | .pass i now_timer =>
    match s.pc i with
    | .expiring now_ms =>
      match s.mgr.expirePass now_ms now_timer with
      | .ok (m, _, _) => some (s.goto m i .idle)
      | .error _ => none
    | _ => none

theorem next_sound (s : Threads φ ω ι) (l : Label φ ω ι) (s' : Threads φ ω ι)
    (h : next s l = some s') : Step s l s' := by
  cases l with
  | tick now =>
    cases h
    exact .tick s now
  | construct i t ms cb recurring =>
    simp only [next] at h
    split at h <;> cases h
    exact .construct ‹_› t ms cb recurring
  | insert i =>
    simp only [next] at h
    split at h
    · split at h <;> cases h
      exact .insert ‹_› (Option.isNone_iff_eq_none.mp ‹_›) rfl
    · cases h
  | announce i =>
    simp only [next] at h
    split at h <;> cases h
    exact .announce ‹_›
  | cancel i t =>
    simp only [next] at h
    split at h <;> cases h
    exact .cancel ‹_› (by simp [*]) ‹_›
  | refresh i t =>
    simp only [next] at h
    split at h <;> cases h
    exact .refresh ‹_› (by simp [*]) ‹_›
  | reset i t ms from_now =>
    simp only [next] at h
    split at h <;> cases h
    exact .reset ‹_› (by simp [*]) ‹_›
  | getNextTimer i =>
    simp only [next] at h
    split at h <;> cases h
    exact .getNextTimer ‹_›
  | readClock i =>
    simp only [next] at h
    split at h <;> cases h
    exact .readClock ‹_›
  | test i =>
    simp only [next] at h
    split at h <;> cases h
    exact .test ‹_›
  | pass i now_timer =>
    simp only [next] at h
    split at h
    · split at h <;> cases h
      exact .pass ‹_› ‹_›
    · cases h

/-! ## What a step keeps -/

theorem Step.inv {s s' : Threads φ ω ι} {l : Label φ ω ι} (hstep : Step s l s')
    (h : Inv s.mgr) : Inv s'.mgr := by
  cases hstep with
  | tick | construct | announce | readClock | test => exact h
  | insert hpc ht hrun =>
    obtain ⟨m', at_front, hrun', hinv, -⟩ := h.addTimer_spec ht _ _ _ _
    rw [hrun'] at hrun
    cases hrun
    exact hinv
  | cancel hpc ht hrun =>
    rcases h.of_cancel hrun with rfl | ⟨hinv, -⟩
    · exact h
    · exact hinv
  | refresh hpc ht hrun =>
    rcases h.of_refresh hrun with rfl | ⟨-, hinv, -⟩
    · exact h
    · exact hinv
  | reset hpc ht hrun =>
    rcases h.of_reset hrun with ⟨rfl, -⟩ | ⟨-, hinv, -⟩
    · exact h
    · exact hinv
  | getNextTimer => exact (inv_getNextTimer h _).1
  | pass hpc hrun => exact (h.of_expirePass hrun).inv

theorem run_inv {now : UInt64} {s : Threads φ ω ι} {ls : List (Label φ ω ι)}
    (h : Run Step (init now) ls s) : Inv s.mgr :=
  h.invariant (I := fun s => Inv s.mgr) (fun _ _ _ hinv hstep => hstep.inv hinv) (inv_new now)

/-- Only the insertion of a new timer brings a timer into the set. -/
theorem Step.subset {s s' : Threads φ ω ι} {l : Label φ ω ι} (hstep : Step s l s')
    (h : Inv s.mgr) (hl : ∀ i, l ≠ .insert i) : s'.mgr.m_timers ⊆ s.mgr.m_timers := by
  intro y hy
  cases hstep with
  | tick | construct | announce | readClock | test => exact hy
  | @insert i => exact absurd rfl (hl i)
  | cancel hpc ht hrun =>
    rcases h.of_cancel hrun with rfl | ⟨-, -, hmem, -⟩
    · exact hy
    · exact ((hmem y).mp hy).1
  | refresh hpc ht hrun =>
    rcases h.of_refresh hrun with rfl | ⟨-, -, -, hmem, -⟩
    · exact hy
    · exact (hmem y).mp hy
  | reset hpc ht hrun =>
    rcases h.of_reset hrun with ⟨rfl, -⟩ | ⟨-, -, -, hmem, -⟩
    · exact hy
    · exact (hmem y).mp hy
  | getNextTimer => rwa [show _ = _ from (inv_getNextTimer h _).2] at hy
  | pass hpc hrun => exact (((h.of_expirePass hrun).mem_iff y).mp hy).1

theorem Step.insert_ne_nil {s s' : Threads φ ω ι} {i : ι} (hstep : Step s (.insert i) s') :
    s'.mgr.m_timers ≠ [] := by
  cases hstep with
  | insert hpc ht hrun =>
    have hm := congrArg (fun r => r.1.m_timers) hrun
    exact fun hnil => insertTimer_ne_nil _ _ (hm.trans hnil)

theorem goto_pc (s : Threads φ ω ι) (m : TimerManager φ ω) (i : ι) (p : Pc φ ω) (j : ι) :
    (s.goto m i p).pc j = if j = i then p else s.pc j := by
  simp only [goto, Function.update_apply]

/-- A thread comes to its pass only through the test, which found the set not empty. -/
theorem Step.expiring {s s' : Threads φ ω ι} {l : Label φ ω ι} (hstep : Step s l s') {i : ι}
    {now_ms : UInt64} (hpc' : s'.pc i = .expiring now_ms) :
    s.pc i = .expiring now_ms ∨ s'.mgr = s.mgr ∧ s.mgr.m_timers ≠ [] := by
  cases hstep with
  | tick => exact Or.inl hpc'
  | @test j _ hpc =>
    rw [goto_pc] at hpc'
    split at hpc'
    · refine Or.inr ⟨rfl, fun hnil => ?_⟩
      simp [isEmpty, hnil] at hpc'
    · exact Or.inl hpc'
  | construct | announce | cancel | refresh | getNextTimer | readClock | pass =>
    rw [goto_pc] at hpc'
    split at hpc'
    · cases hpc'
    · exact Or.inl hpc'
  | insert | reset =>
    rw [goto_pc] at hpc'
    split at hpc'
    · simp only [atFront] at hpc'
      split at hpc' <;> cases hpc'
    · exact Or.inl hpc'

/-! ## The emptiness test and the pass -/

/-- In the course of the run, the last timer was taken out while `i` stood between its test and
its pass, and no timer was inserted since. -/
def EmptiedUnder (s₀ : Threads φ ω ι) (ls : List (Label φ ω ι)) (s : Threads φ ω ι) (i : ι) :
    Prop :=
  ∃ pre l post u v, ls = pre ++ l :: post ∧ Run Step s₀ pre u ∧ Step u l v ∧ Run Step v post s ∧
    (∃ now_ms, u.pc i = .expiring now_ms) ∧ u.mgr.m_timers ≠ [] ∧ v.mgr.m_timers = [] ∧
    ∀ j, .insert j ∉ post

/-- While the set stays empty, no thread comes to its pass. -/
theorem expiring_of_empty {s s' : Threads φ ω ι} {ls : List (Label φ ω ι)}
    (h : Run (Guard (fun u _ => u.mgr.m_timers = []) Step) s ls s') {i : ι} {now_ms : UInt64}
    (hpc' : s'.pc i = .expiring now_ms) : s.pc i = .expiring now_ms := by
  induction h with
  | nil => exact hpc'
  | cons hst _ ih =>
    rcases hst.2.expiring (ih hpc') with hpc | ⟨-, hne⟩
    · exact hpc
    · exact absurd hst.1 hne

/-- Without an insertion an empty set stays empty. -/
theorem empty_of_no_insert {s s' : Threads φ ω ι} {ls : List (Label φ ω ι)}
    (h : Run Step s ls s') (hinv : Inv s.mgr) (hempty : s.mgr.m_timers = [])
    (hls : ∀ j, .insert j ∉ ls) : s'.mgr.m_timers = [] := by
  induction h with
  | nil => exact hempty
  | @cons s t _ l ls hst _ ih =>
    refine ih (hst.inv hinv) ?_ fun j hj => hls j (List.mem_cons_of_mem _ hj)
    have hsub := hst.subset hinv fun j hj => hls j (hj ▸ List.mem_cons_self)
    rw [hempty] at hsub
    exact List.subset_nil.mp hsub

theorem empty_iff_emptiedUnder {now : UInt64} {ls : List (Label φ ω ι)} {s : Threads φ ω ι}
    (h : Run Step (init now) ls s) {i : ι} {now_ms : UInt64} (hpc : s.pc i = .expiring now_ms) :
    s.mgr.m_timers = [] ↔ EmptiedUnder (init now) ls s i := by
  constructor
  · intro hempty
    rcases h.last_change (P := fun u => u.mgr.m_timers = []) hempty with
      hall | ⟨pre, l, post, u, v, rfl, hpre, hstep, hpost, hu⟩
    · -- in a run with an empty set throughout no thread gets past its test
      have := expiring_of_empty hall hpc
      cases this
    · obtain ⟨hv, hsteps⟩ := hpost.steps_within hempty
      refine ⟨pre, l, post, u, v, rfl, hpre, hstep, hpost.of_guard, ⟨now_ms, ?_⟩, hu, hv, ?_⟩
      · rcases hstep.expiring (expiring_of_empty hpost hpc) with hpcu | ⟨hsame, -⟩
        · exact hpcu
        · rw [hsame] at hv
          exact absurd hv hu
      · intro j hj
        obtain ⟨a, b, hst, -, hb⟩ := hsteps _ hj
        exact hst.insert_ne_nil hb
  · rintro ⟨pre, l, post, u, v, rfl, hpre, hstep, hpost, -, -, hv, hno⟩
    exact empty_of_no_insert hpost (hstep.inv (run_inv hpre)) hv hno

/-- In every run, a pass about to be made does not dereference the end iterator exactly when it
detects a rollover, or the set was not emptied behind the test of its call, or was filled
again since. -/
theorem expirePass_safe_iff (now : UInt64) (ls : List (Label φ ω ι)) (s : Threads φ ω ι)
    (h : Run Step (init now) ls s) (i : ι) (now_ms : UInt64) (hpc : s.pc i = .expiring now_ms)
    (now_timer : Nat) : s.mgr.expirePass now_ms now_timer ≠ .error .derefEnd ↔
      (s.mgr.detectClockRollover now_ms).2 = true ∨ ¬EmptiedUnder (init now) ls s i := by
  rw [Ne, (run_inv h).expirePass_derefEnd, empty_iff_emptiedUnder h hpc, ← Bool.not_eq_true]
  tauto

/-- One thread stands between its test and its pass while the other cancels the only timer. -/
def cancelUnderPass : List (Label Nat Nat Bool) :=
  [.construct true 7 10 (some (.plain 0)) false, .insert true, .announce true, .readClock false,
    .test false, .cancel true 7]

theorem run_cancelUnderPass : ∃ s, Run Step (init 100) cancelUnderPass s ∧
    s.pc false = .expiring 100 ∧ s.mgr.expirePass 100 9 = .error .derefEnd :=
  Run.of_exec next_sound (t := _) rfl |> fun h => ⟨_, h, rfl, rfl⟩

theorem expirePass_safe_iff_cancelUnderPass : ∃ s, Run Step (init 100) cancelUnderPass s ∧
    EmptiedUnder (init 100) cancelUnderPass s false := by
  obtain ⟨s, hrun, hpc, hend⟩ := run_cancelUnderPass
  have hiff := expirePass_safe_iff 100 _ s hrun false 100 hpc 9
  refine ⟨s, hrun, ?_⟩
  by_contra hno
  exact hiff.mpr (Or.inr hno) hend

theorem not_expirePass_safe : ¬∀ (now : UInt64) (ls : List (Label Nat Nat Bool))
    (s : Threads Nat Nat Bool), Run Step (init now) ls s → ∀ i now_ms,
      s.pc i = .expiring now_ms → ∀ now_timer,
        s.mgr.expirePass now_ms now_timer ≠ .error .derefEnd := by
  intro hsafe
  obtain ⟨s, hrun, hpc, hend⟩ := run_cancelUnderPass
  exact hsafe 100 _ s hrun false 100 hpc 9 hend

end Threads

end Captain.TimerManager
