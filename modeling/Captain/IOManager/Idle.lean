import Captain.Timer.Deadlines
import Mathlib.Data.BitVec

/-!
# How long `idle` waits

`IOManager::idle` asks `getNextTimer` for the milliseconds that are left, a `uint64_t`, caps them
at `MAX_TIMEOUT` and hands them to `epoll_wait` as an `int`. The cap is decided on the number cast
to `int`, but the number that is kept is the uncast one.

`bounded_iff`: the timeout is between 0 and 3000 and not past the earliest deadline if and only if
the low 32 bits of the time left, read as an `int`, are not negative. `epoll_wait` takes a
negative timeout for no timeout at all.
-/

namespace Captain

open OrderedSet

namespace IOManager

variable {φ ω : Type}

/-- `(int)x` of a `uint64_t`. -/
def toInt (x : UInt64) : Int := (x.toBitVec.setWidth 32).toInt

/-- `static const int MAX_TIMEOUT`. -/
def MAX_TIMEOUT : UInt64 := 3000

/-- `IOManager::stopping(timeout)`; `sched_stopping` is what `Scheduler::stopping()` says. -/
def stopping (m : TimerManager φ ω) (now_ms : UInt64) (m_pendingEventCount : Nat)
    (sched_stopping : Bool) : TimerManager φ ω × UInt64 × Bool :=
  let (m, timeout) := m.getNextTimer now_ms
  (m, timeout, timeout = -1 && m_pendingEventCount = 0 && sched_stopping)

/-- What the loop around `epoll_wait` makes of `next_timeout` before each call. -/
def capTimeout (next_timeout : UInt64) : UInt64 :=
  if next_timeout ≠ -1 then
    if toInt next_timeout > toInt MAX_TIMEOUT then MAX_TIMEOUT else next_timeout
  else MAX_TIMEOUT

/-- The timeout of the call of `epoll_wait` that comes after `interrupts` calls were interrupted
(`rt < 0 && errno == EINTR`). -/
def waitTimeout (next_timeout : UInt64) : (interrupts : Nat) → Int
  | 0 => toInt (capTimeout next_timeout)
  | interrupts + 1 => waitTimeout (capTimeout next_timeout) interrupts

/-- The timeouts that one turn of the loop of `idle` passes to `epoll_wait`, if it does not stop:
`now_ms` is the reading of `getNextTimer`. -/
def idleTimeout (m : TimerManager φ ω) (now_ms : UInt64) (m_pendingEventCount : Nat)
    (sched_stopping : Bool) : Option (Nat → Int) :=
  let (_, next_timeout, stop) := stopping m now_ms m_pendingEventCount sched_stopping
  if stop then none else some (waitTimeout next_timeout)

/-! ## The two casts -/

theorem toInt_eq (x : UInt64) : toInt x =
    if x.toNat % 2 ^ 32 < 2 ^ 31 then ((x.toNat % 2 ^ 32 : Nat) : Int)
    else ((x.toNat % 2 ^ 32 : Nat) : Int) - 2 ^ 32 := by
  rw [toInt, BitVec.toInt_eq_toNat_cond, BitVec.toNat_setWidth, UInt64.toNat_toBitVec]
  split <;> split <;> omega

theorem toInt_MAX_TIMEOUT : toInt MAX_TIMEOUT = 3000 := by
  rw [toInt_eq]
  decide

/-- After the first cap nothing changes any more: an interrupted call is made again with the same
timeout. -/
theorem capTimeout_capTimeout (x : UInt64) : capTimeout (capTimeout x) = capTimeout x := by
  have hmax : capTimeout MAX_TIMEOUT = MAX_TIMEOUT := by
    rw [capTimeout, if_pos (by decide), if_neg (Int.lt_irrefl _)]
  by_cases hx : x ≠ -1
  · by_cases hgt : toInt x > toInt MAX_TIMEOUT
    · rw [capTimeout.eq_def x, if_pos hx, if_pos hgt, hmax]
    · have hcap : capTimeout x = x := by rw [capTimeout, if_pos hx, if_neg hgt]
      rw [hcap, hcap]
  · rw [capTimeout.eq_def x, if_neg hx, hmax]

theorem waitTimeout_eq (x : UInt64) (interrupts : Nat) :
    waitTimeout x interrupts = toInt (capTimeout x) := by
  induction interrupts generalizing x with
  | zero => rfl
  | succ interrupts ih => rw [waitTimeout, ih, capTimeout_capTimeout]

/-- The cap works as long as the number that is compared is not negative. -/
theorem toInt_capTimeout_iff {x : UInt64} (hx : x ≠ -1) :
    (0 ≤ toInt (capTimeout x) ∧ toInt (capTimeout x) ≤ 3000 ∧
      toInt (capTimeout x) ≤ (x.toNat : Int)) ↔ x.toNat % 2 ^ 32 < 2 ^ 31 := by
  rw [capTimeout, if_pos hx, toInt_MAX_TIMEOUT]
  have hle := Nat.mod_le x.toNat (2 ^ 32)
  have heq := toInt_eq x
  have hlt := Nat.mod_lt x.toNat (show 0 < 2 ^ 32 by omega)
  constructor
  · rintro ⟨hpos, -⟩
    by_contra hneg
    rw [if_neg hneg] at heq
    rw [if_neg (by omega), heq] at hpos
    omega
  · intro hlow
    rw [if_pos hlow] at heq
    by_cases hgt : toInt x > 3000
    · rw [if_pos hgt, toInt_MAX_TIMEOUT]
      omega
    · rw [if_neg hgt]
      omega

/-! ## The timeout and the earliest deadline -/

/-- A timeout that is not negative, not above the cap, and over when the first timer is due. -/
structure Bounded (m : TimerManager φ ω) (now_ms : UInt64) (timeout : Int) : Prop where
  nonneg : 0 ≤ timeout
  le_max : timeout ≤ 3000
  in_time : ∀ t ∈ m.m_timers,
    timeout ≤ (((m.timer t).m_next.toNat - now_ms.toNat : Nat) : Int)

/-- No timer is ahead, or the first one is `2 ^ 64 - 1` ms ahead, which reads as no timer, or the
time left to it is less than `2 ^ 31` ms modulo `2 ^ 32`. -/
def Castable (m : TimerManager φ ω) (now_ms : UInt64) : Prop :=
  ∀ d ∈ m.deadline, now_ms < d → d - now_ms = -1 ∨ (d - now_ms).toNat % 2 ^ 32 < 2 ^ 31

theorem bounded_iff_of_none {m : TimerManager φ ω} (hd : m.deadline = none) (now_ms : UInt64)
    (timeout : Int) : Bounded m now_ms timeout ↔ 0 ≤ timeout ∧ timeout ≤ 3000 := by
  have hempty := TimerManager.deadline_eq_none.mp hd
  exact ⟨fun hb => ⟨hb.nonneg, hb.le_max⟩, fun hb => ⟨hb.1, hb.2, by simp [hempty]⟩⟩

/-- The timers of an ordered set are due no earlier than the first one. -/
theorem bounded_iff_of_some {m : TimerManager φ ω} (h : m.Inv) {d : UInt64}
    (hd : m.deadline = some d) (now_ms : UInt64) (timeout : Int) :
    Bounded m now_ms timeout ↔ 0 ≤ timeout ∧ timeout ≤ 3000 ∧
      timeout ≤ ((d.toNat - now_ms.toNat : Nat) : Int) := by
  constructor
  · intro hb
    obtain ⟨t, ht, rfl⟩ := TimerManager.mem_of_deadline hd
    exact ⟨hb.nonneg, hb.le_max, hb.in_time t ht⟩
  · rintro ⟨hpos, hmax, hle⟩
    refine ⟨hpos, hmax, ?_⟩
    intro t ht
    obtain ⟨d₀, hd₀, hdle⟩ :=
      TimerManager.not_dueBefore_iff.mp (TimerManager.not_dueBefore_deadline h) t ht
    rw [hd] at hd₀
    cases hd₀
    rw [UInt64.le_iff_toNat_le] at hdle
    omega

theorem bounded_capTimeout_iff {m : TimerManager φ ω} (h : m.Inv) (now_ms : UInt64) :
    Bounded m now_ms (toInt (capTimeout (m.getNextTimer now_ms).2)) ↔ Castable m now_ms := by
  have hnone : toInt (capTimeout (-1)) = 3000 := by
    rw [capTimeout, if_neg (by simp), toInt_MAX_TIMEOUT]
  cases hd : m.deadline with
  | none =>
    rw [TimerManager.getNextTimer_of_none hd, bounded_iff_of_none hd, hnone]
    constructor
    · intro _ d hd'
      rw [hd] at hd'
      cases hd'
    · intro _
      decide
  | some d =>
    have hcast : Castable m now_ms ↔
        (now_ms < d → d - now_ms = -1 ∨ (d - now_ms).toNat % 2 ^ 32 < 2 ^ 31) := by
      simp [Castable, hd]
    rw [hcast, TimerManager.getNextTimer_of_some hd, bounded_iff_of_some h hd]
    by_cases hdue : now_ms ≥ d
    · -- the timer is due: no wait
      have hzero : toInt (capTimeout 0) = 0 := by decide
      rw [if_pos hdue, hzero]
      constructor
      · intro _ hlt
        exact absurd hlt (UInt64.not_lt.mpr hdue)
      · intro _
        omega
    · have hlt : now_ms < d := UInt64.not_le.mp hdue
      have hsub : (d - now_ms).toNat = d.toNat - now_ms.toNat :=
        UInt64.toNat_sub_of_le _ _ (UInt64.le_of_lt hlt)
      rw [if_neg hdue, ← hsub]
      by_cases hleft : d - now_ms = -1
      · -- the time left reads as no timer
        rw [hleft, hnone]
        constructor
        · exact fun _ _ => Or.inl rfl
        · intro _
          decide
      · rw [toInt_capTimeout_iff hleft]
        constructor
        · exact fun hlow _ => Or.inr hlow
        · intro himp
          exact (himp hlt).resolve_left hleft

/-- `idle` stops only if `getNextTimer` said that there is no timer. -/
theorem castable_of_stopping {m : TimerManager φ ω} {now_ms : UInt64}
    {pending : Nat} {sched_stopping : Bool}
    (hstop : (stopping m now_ms pending sched_stopping).2.2 = true) : Castable m now_ms := by
  have hnone : (m.getNextTimer now_ms).2 = -1 := by
    simp only [stopping, Bool.and_eq_true, decide_eq_true_eq] at hstop
    exact hstop.1.1
  intro d hd hlt
  rw [TimerManager.getNextTimer_of_some hd, if_neg (UInt64.not_le.mpr hlt)] at hnone
  exact Or.inl hnone

/-- **Timeout of `idle`.** For every timer set in order and every time, each timeout that `idle`
passes to `epoll_wait`, also after calls that were interrupted, is between 0 and 3000 and not past
the earliest deadline if and only if no timer is ahead or the time left to the first one is
`2 ^ 64 - 1` or less than `2 ^ 31` modulo `2 ^ 32`. -/
theorem bounded_iff {m : TimerManager φ ω} (h : m.Inv) (now_ms : UInt64) (pending : Nat)
    (sched_stopping : Bool) :
    (∀ timeouts ∈ idleTimeout m now_ms pending sched_stopping, ∀ interrupts,
      Bounded m now_ms (timeouts interrupts)) ↔ Castable m now_ms := by
  unfold idleTimeout
  cases hstop : (stopping m now_ms pending sched_stopping).2.2 with
  | true => simp [hstop, castable_of_stopping hstop]
  | false =>
    rw [← bounded_capTimeout_iff h]
    simp only [hstop, Bool.false_eq_true, if_false, Option.mem_some_iff, forall_eq',
      waitTimeout_eq]
    exact forall_const Nat

/-- A set with one timer, due `ms` after the clock reading 1000. -/
def oneTimer (ms : UInt64) : TimerManager Nat Nat :=
  ((TimerManager.new 0).addTimer 7 ms (some (.plain 0)) false 1000).1

theorem inv_oneTimer (ms : UInt64) : (oneTimer ms).Inv := by
  obtain ⟨m, at_front, hrun, hinv, -⟩ := (TimerManager.inv_new 0).addTimer_spec (t := 7) rfl ms
    (some (.plain 0 : Callback Nat Nat)) false 1000
  rw [oneTimer, hrun]
  exact hinv

/-- A timer that is due in `2 ^ 31` ms: the timeout is `-2 ^ 31`. -/
theorem not_bounded : ∃ m : TimerManager Nat Nat, m.Inv ∧
    ∃ timeouts ∈ idleTimeout m 1000 0 false, timeouts 0 = -2147483648 ∧
      ¬Bounded m 1000 (timeouts 0) := by
  have htimeout : waitTimeout ((oneTimer 2147483648).getNextTimer 1000).2 0 = -2147483648 := by
    decide
  refine ⟨oneTimer 2147483648, inv_oneTimer _,
    waitTimeout ((oneTimer 2147483648).getNextTimer 1000).2, rfl, htimeout, ?_⟩
  intro hb
  have hpos := hb.nonneg
  rw [htimeout] at hpos
  exact absurd hpos (by decide)

/-- A timer that is due in a week. -/
theorem bounded_iff_week : ∃ m : TimerManager Nat Nat, m.Inv ∧ m.m_timers = [7] ∧
    ∀ timeouts ∈ idleTimeout m 1000 0 false, ∀ interrupts,
      Bounded m 1000 (timeouts interrupts) := by
  refine ⟨oneTimer 604800000, inv_oneTimer _, rfl, ?_⟩
  apply (bounded_iff (inv_oneTimer _) 1000 0 false).mpr
  intro d hd _
  cases hd
  exact Or.inr (by decide)

end IOManager

end Captain
