import Captain.Hook.Deadlines
import Captain.Hook.Registrations

/-!
# `do_io` reports a timeout

`listExpiredCb` reads the clock before it takes the lock. A thread that is held up between the two
makes its pass with an old reading: when another thread has made a pass more than an hour later in
between, `detectClockRollover` reports a rollover, though the clock never went back, and all timers
are fired.

* `doIo_timeout`: in every run without such a pass a call reports a timeout only for a timer of its
  own that was due, and each registration is given to the scheduler at most once.
-/

namespace Captain.System

open TimerManager Transition

variable {χ : Type}

/-- **Timeouts.** For every run under a clock that does not go back, without an overflow of a
deadline and without a pass that finds a rollover: a call that reports a timeout has set a timer
that was found expired, its timeout or more after the call began, and each registration of a call is
given to the scheduler at most once. -/
theorem doIo_timeout {now : UInt64} {kernel : Kernel} {ls : List (Label χ)} {s : System χ}
    (h : Run (Guard (fun s l => s.clocked l ∧ s.noRollover l) Step) (init now kernel) ls s) :
    (∀ c k, s.calls c = some k → k.pc = .timedOut → ∃ t, k.cancelled = some t ∧ Due s c t) ∧
      ∀ c n, s.events.mgr.scheduled.countP (fun t => t.2.isCallAt c n) ≤ 1 := by
  have ht := run_timely h
  obtain ⟨S, hS⟩ := run_ledger h.of_guard
  refine ⟨?_, hS.scheduled⟩
  intro c k hk hpc
  obtain ⟨t, hcancelled⟩ := Option.isSome_iff_exists.mp (ht.timedOut c k hk hpc)
  exact ⟨t, hcancelled, ht.cancelled c k t hk hcancelled⟩

/-- A socket with a timeout of 5 s for `SO_RCVTIMEO`. -/
def openSocket : List (Label χ) :=
  [.socket 0 5 ⟨true, 0⟩, .adopt 0, .setTimeout 5 SO_RCVTIMEO 5000]

/-- A call reads from it, and waits. -/
def suspend : List (Label χ) :=
  [.begin 0 5 .READ true SO_RCVTIMEO, .syscall 0 .again, .construct 0 7, .insert 0, .announce 0,
    .addEventFind 0, .addEventLock 0 true]

/-- The thread `i` makes its pass. -/
def expire (i : Nat) : List (Label χ) := [.timer (.test (.worker i)), .pass i 9]

/-- The callback of the timer is run, and the call is resumed. -/
def callOff : List (Label χ) :=
  [.lockCond 0, .test 0, .flag 0, .cancelEventFind 0, .cancelEventLock 0 true, .resume 0, .cancel 0,
    .check 0]

/-- A thread reads the clock and is held up for two hours. Then a call begins, another thread makes
its pass and the first goes on. -/
def heldUp : List (Label Nat) :=
  openSocket ++ .timer (.readClock (.worker 0)) :: .tick 1700007200000 :: suspend ++
    .timer (.readClock (.worker 1)) :: expire 1 ++ expire 0 ++ callOff

/-- The call reports a timeout at the time it began. -/
theorem not_doIo_timeout : ∃ s : System Nat,
    Run (Guard (fun s l => s.clocked l = true) Step) (init 1700000000000 fun _ => none) heldUp s ∧
    ∃ k, s.calls 0 = some k ∧ k.pc = .timedOut ∧ k.timeout = 5000 ∧ k.began = s.timers.clock ∧
      ¬∃ t, k.cancelled = some t ∧ Due s 0 t := by
  have hexec : (exec (guardNext (fun (s : System Nat) l => s.clocked l = true) next)
      (init 1700000000000 fun _ => none) heldUp).any (fun s => s.timers.clock = 1700007200000 ∧
        ∃ k ∈ s.calls 0, k.pc = .timedOut ∧ k.timeout = 5000 ∧ k.began = 1700007200000) = true := by
    decide +kernel
  obtain ⟨s, hrun, hs⟩ := Run.of_exec_any (guardNext_sound fun _ _ _ => id) hexec
  obtain ⟨hclock, k, hk, hpc, htimeout, hbegan⟩ := of_decide_eq_true hs
  refine ⟨s, hrun, k, hk, hpc, htimeout, hbegan.trans hclock.symm, ?_⟩
  rintro ⟨t, -, k', now, r, hk', -, -, hle, hsum, hr⟩
  rw [show s.calls 0 = some k from hk] at hk'
  cases hk'
  rw [hbegan, UInt64.le_iff_toNat_le] at hle
  rw [hclock, UInt64.le_iff_toNat_le] at hr
  rw [htimeout] at hsum
  have : (5000 : UInt64).toNat = 5000 := rfl
  omega

/-- The timer is found expired when its five seconds are over. -/
def timedOutInTime : List (Label Nat) :=
  openSocket ++ suspend ++ .tick 1700000005000 :: .timer (.readClock (.worker 1)) :: expire 1 ++
    callOff

theorem doIo_timeout_once : ∃ s : System Nat,
    Run (Guard (fun s l => s.clocked l ∧ s.noRollover l) Step) (init 1700000000000 fun _ => none)
      timedOutInTime s ∧
    (∃ k, s.calls 0 = some k ∧ k.pc = .timedOut ∧ ∃ t, k.cancelled = some t ∧ Due s 0 t) ∧
      s.events.mgr.scheduled.countP (fun t => t.2.isCallAt 0 1) ≤ 1 := by
  have hexec : (exec (guardNext (fun (s : System Nat) l => s.clocked l ∧ s.noRollover l) next)
      (init 1700000000000 fun _ => none) timedOutInTime).any (fun s =>
        ∃ k ∈ s.calls 0, k.pc = .timedOut) = true := by
    decide +kernel
  obtain ⟨s, hrun, hs⟩ := Run.of_exec_any (guardNext_sound fun _ _ _ => id) hexec
  obtain ⟨k, hk, hpc⟩ := of_decide_eq_true hs
  obtain ⟨hown, honce⟩ := doIo_timeout hrun
  exact ⟨s, hrun, ⟨k, hk, hpc, hown 0 k hk hpc⟩, honce 0 1⟩

end Captain.System
