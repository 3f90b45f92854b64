import Captain.Hook.DoIo
import Captain.Timer.Delay

/-!
# The hooked `sleep`, `usleep` and `nanosleep` (`captain/hook.cpp`)

Each of them adds a timer that schedules the calling fiber, and yields. The period of the timer is
the argument in milliseconds, computed in another width each: an unsigned product of 32 bits, a
truncating division, and a signed sum that is narrowed to `int` and widened again.

Fibers that sleep share the timers with the workers. The state is that of `TimerManager.Threads`
with the calls and the queue of the scheduler; what a fiber does after it is scheduled is not in it.
-/

namespace Captain

/-- A `struct timespec` in its range. -/
structure Timespec where
  tv_sec : Int64
  tv_nsec : Int64
  sec_nonneg : 0 ≤ tv_sec.toInt
  nsec_nonneg : 0 ≤ tv_nsec.toInt
  nsec_lt : tv_nsec.toInt < 10 ^ 9

/-- `timeout_ms` of `nanosleep`, the product being what the machine computes. -/
def Timespec.timeout_ms (req : Timespec) : Int32 :=
  (req.tv_sec * 1000 + req.tv_nsec / 1000 / 1000).toInt32

/-- A call of a hooked function. -/
inductive Request
  | sleep (seconds : UInt32)
  | usleep (usec : UInt32)
  | nanosleep (req : Timespec)

namespace Request

/-- What the call passes to `addTimer`. -/
def period : Request → UInt64
  | .sleep seconds => (seconds * 1000).toUInt64
  | .usleep usec => (usec / 1000).toUInt64
  | .nanosleep req => req.timeout_ms.toInt64.toUInt64

/-- The requested duration in nanoseconds. -/
def duration : Request → Nat
  | .sleep seconds => seconds.toNat * 10 ^ 9
  | .usleep usec => usec.toNat * 1000
  | .nanosleep req => req.tv_sec.toInt.toNat * 10 ^ 9 + req.tv_nsec.toInt.toNat

/-- The whole milliseconds of the argument of `nanosleep`. -/
def millis (req : Timespec) : Nat :=
  req.tv_sec.toInt.toNat * 1000 + req.tv_nsec.toInt.toNat / 10 ^ 6

/-- The period is the duration, or no clock reading leaves room for the duration. -/
def Exact : Request → Prop
  | .sleep seconds => seconds.toNat * 1000 < 2 ^ 32
  | .usleep usec => 1000 ∣ usec.toNat
  | .nanosleep req =>
    10 ^ 6 ∣ req.tv_nsec.toInt.toNat ∧ (millis req < 2 ^ 31 ∨ 2 ^ 64 - 2 ^ 31 ≤ millis req) ∨
      2 ^ 64 ≤ millis req

instance (r : Request) : Decidable r.Exact := by
  cases r <;> unfold Exact <;> infer_instance

theorem toNat_toUInt64 (a : Int64) : (a.toUInt64.toNat : Int) = a.toInt % 2 ^ 64 := by
  have hlt := a.toBitVec.isLt
  have hint : a.toInt = (a.toBitVec.toNat : Int).bmod (2 ^ 64) := BitVec.toInt_eq_toNat_bmod ..
  have hnat : a.toUInt64.toNat = a.toBitVec.toNat := rfl
  rw [hint, hnat, Int.bmod_def]
  omega

theorem toInt_div_thousand {a : Int64} (h : 0 ≤ a.toInt) : (a / 1000).toInt = a.toInt / 1000 := by
  have hlt := a.toInt_lt
  have hthousand : (1000 : Int64).toInt = 1000 := rfl
  rw [Int64.toInt_div, hthousand, Int.tdiv_eq_ediv_of_nonneg h, Int.bmod_def]
  omega

theorem toInt_timeout_ms (req : Timespec) :
    req.timeout_ms.toInt = (millis req : Int).bmod (2 ^ 32) := by
  have hsec := req.sec_nonneg
  have hnsec := req.nsec_nonneg
  have hdiv := toInt_div_thousand hnsec
  have hdiv' := toInt_div_thousand (a := req.tv_nsec / 1000) (by omega)
  have hmillis : (millis req : Int) =
      req.tv_sec.toInt * 1000 + req.tv_nsec.toInt / 1000 / 1000 := by
    rw [millis]
    omega
  have hthousand : (1000 : Int64).toInt = 1000 := rfl
  rw [Timespec.timeout_ms, Int64.toInt_toInt32, Int64.toInt_add, Int64.toInt_mul, hdiv', hdiv,
    hthousand, hmillis, Int.bmod_add_bmod, Int.bmod_bmod_of_dvd (by decide)]

/-- The period of `nanosleep`, with the extension of the sign. -/
theorem toNat_period_nanosleep (req : Timespec) :
    (period (.nanosleep req)).toNat =
      if millis req % 2 ^ 32 < 2 ^ 31 then millis req % 2 ^ 32
      else 2 ^ 64 - 2 ^ 32 + millis req % 2 ^ 32 := by
  have h := toNat_toUInt64 req.timeout_ms.toInt64
  rw [Int32.toInt_toInt64, toInt_timeout_ms, Int.bmod_def] at h
  rw [period]
  split at h <;> split <;> omega

theorem duration_nanosleep (req : Timespec) :
    duration (.nanosleep req) = millis req * 10 ^ 6 + req.tv_nsec.toInt.toNat % 10 ^ 6 := by
  rw [duration, millis]
  omega

theorem toNat_period_sleep (seconds : UInt32) :
    (period (.sleep seconds)).toNat = seconds.toNat * 1000 % 2 ^ 32 := by
  rw [period, UInt32.toNat_toUInt64, UInt32.toNat_mul]
  rfl

theorem toNat_period_usleep (usec : UInt32) :
    (period (.usleep usec)).toNat = usec.toNat / 1000 := by
  rw [period, UInt32.toNat_toUInt64, UInt32.toNat_div]
  rfl

theorem Exact.period {r : Request} (h : r.Exact) (hlt : r.duration < 2 ^ 64 * 10 ^ 6) :
    r.period.toNat * 10 ^ 6 = r.duration := by
  cases r with
  | sleep seconds =>
    rw [Exact] at h
    rw [toNat_period_sleep, duration]
    omega
  | usleep usec =>
    rw [Exact] at h
    rw [toNat_period_usleep, duration]
    omega
  | nanosleep req =>
    rw [duration_nanosleep] at hlt ⊢
    rw [Exact] at h
    rw [toNat_period_nanosleep]
    split <;> omega

/-- A period that is not the duration is shorter, or so long that a deadline wraps around. -/
theorem not_exact {r : Request} (h : ¬r.Exact) :
    0 < r.duration ∧ r.duration < 2 ^ 64 * 10 ^ 6 ∧
      (r.period.toNat * 10 ^ 6 < r.duration ∨ 2 ^ 64 - 2 ^ 31 ≤ r.period.toNat ∧
        2 ^ 31 * 10 ^ 6 + r.duration < 2 ^ 64 * 10 ^ 6) := by
  cases r with
  | sleep seconds =>
    have hlt := seconds.toNat_lt
    rw [Exact] at h
    rw [toNat_period_sleep, duration]
    omega
  | usleep usec =>
    have hlt := usec.toNat_lt
    rw [Exact] at h
    rw [toNat_period_usleep, duration]
    omega
  | nanosleep req =>
    rw [Exact] at h
    rw [duration_nanosleep, toNat_period_nanosleep]
    split <;> omega

end Request

/-- The functions that timers are given: `IOManager::schedule` bound to the fiber of the call `c`,
and others. -/
inductive Bound (χ : Type)
  | schedule (c : Nat)
  | other (f : χ)

/-- A call that has a timer to add, or has built it. `began`, the clock reading of the call, is not
in the source. -/
structure Sleep where
  request : Request
  began : UInt64
  built : Bool := false

/-- What the fibers share: `tasks` has the callbacks of sleeping calls in the queue of the
scheduler, and `scheduled` the calls whose fiber was scheduled, with the clock reading. -/
structure Sleepers (χ : Type) where
  timers : TimerManager.Threads (Bound χ) Nat Agent
  calls : Nat → Option Sleep
  tasks : List Nat
  scheduled : List (Nat × UInt64)

/-- The call whose fiber the callback schedules. -/
def sleeperOf {χ : Type} : Option (Callback (Bound χ) Nat) → Option Nat
  | some (.plain (.schedule c)) => some c
  | _ => none

namespace Sleepers

open TimerManager

variable {χ : Type}

inductive Label (χ : Type)
  | tick (now : UInt64)
  | timer (l : TimerManager.Label (Bound χ) Nat Agent)
  | pass (i now_timer : Nat)
  | begin (c : Nat) (request : Request)
  | construct (c t : Nat)
  | insert (c : Nat)
  | announce (c : Nat)
  | schedule (n : Nat)

/-- What a worker does with timers, those of sleeping calls apart: no one but the set has a pointer
to them. It may expire all of them, with `pass`. -/
def foreign (s : Sleepers χ) : TimerManager.Label (Bound χ) Nat Agent → Bool
  | .construct (.worker _) _ _ cb _ => (sleeperOf cb).isNone
  | .cancel (.worker _) t | .refresh (.worker _) t | .reset (.worker _) t _ _ =>
    (sleeperOf (s.timers.mgr.timer t).m_cb).isNone
  | .insert (.worker _) | .announce (.worker _) | .getNextTimer (.worker _)
  | .readClock (.worker _) | .test (.worker _) => true
  | _ => false

def setCall (s : Sleepers χ) (c : Nat) (k : Sleep) : Sleepers χ :=
  { s with calls := Function.update s.calls c (some k) }

theorem setCall_calls (s : Sleepers χ) (c : Nat) (k : Sleep) (c' : Nat) :
    (s.setCall c k).calls c' = if c' = c then some k else s.calls c' := Function.update_apply ..

/-- One step of one fiber, or of the clock. -/
inductive Step : Sleepers χ → Label χ → Sleepers χ → Prop
  | tick (s : Sleepers χ) (now : UInt64) : Step s (.tick now) { s with timers.clock := now }
  | timer {s : Sleepers χ} {l : TimerManager.Label (Bound χ) Nat Agent} (hl : s.foreign l = true)
      {timers : Threads (Bound χ) Nat Agent} (hstep : Threads.Step s.timers l timers) :
      Step s (.timer l) { s with timers }
  | pass {s : Sleepers χ} {i : Nat} {now_ms : UInt64}
      (hpc : s.timers.pc (.worker i) = .expiring now_ms) {now_timer : Nat}
      {m : TimerManager (Bound χ) Nat} {expired : List Nat}
      {cbs : List (Option (Callback (Bound χ) Nat))}
      (hrun : s.timers.mgr.expirePass now_ms now_timer = .ok (m, expired, cbs)) :
      Step s (.pass i now_timer)
        { s with
          timers := s.timers.goto m (.worker i) .idle
          tasks := s.tasks ++ cbs.filterMap sleeperOf }
  | begin {s : Sleepers χ} {c : Nat} (hc : s.calls c = none) (request : Request) :
      Step s (.begin c request) (s.setCall c { request, began := s.timers.clock })
  | construct {s : Sleepers χ} {c : Nat} {k : Sleep} (hc : s.calls c = some k)
      (hbuilt : k.built = false) {t : Nat} {timers : Threads (Bound χ) Nat Agent}
      (hstep : Threads.Step s.timers (.construct (.call c) t k.request.period
        (some (.plain (.schedule c))) false) timers) :
      Step s (.construct c t) ({ s with timers }.setCall c { k with built := true })
  | insert {s : Sleepers χ} {c : Nat} {timers : Threads (Bound χ) Nat Agent}
      (hstep : Threads.Step s.timers (.insert (.call c)) timers) :
      Step s (.insert c) { s with timers }
  | announce {s : Sleepers χ} {c : Nat} {timers : Threads (Bound χ) Nat Agent}
      (hstep : Threads.Step s.timers (.announce (.call c)) timers) :
      Step s (.announce c) { s with timers }
  | schedule {s : Sleepers χ} {n c : Nat} (hn : s.tasks[n]? = some c) :
      Step s (.schedule n)
        { s with
          tasks := s.tasks.eraseIdx n
          scheduled := s.scheduled ++ [(c, s.timers.clock)] }

def init (now : UInt64) : Sleepers χ where
  timers := .init now
  calls _ := none
  tasks := []
  scheduled := []

/-- The clock does not go back, and when a timer is built the reading leaves room for the requested
duration. -/
def Clocked (s : Sleepers χ) : Label χ → Prop
  | .tick now => s.timers.clock ≤ now
  | .construct c _ => ∀ k, s.calls c = some k →
    s.timers.clock.toNat * 10 ^ 6 + k.request.duration < 2 ^ 64 * 10 ^ 6
  | _ => True

/-- No pass is made with a reading so far behind that it finds a rollover. -/
def NoRollover (s : Sleepers χ) : Label χ → Prop
  | .pass i _ => ∀ now_ms, s.timers.pc (.worker i) = .expiring now_ms →
    NotFarBehind s.timers.mgr now_ms
  | _ => True

/-- The fibers of the calls with the request `r` were scheduled when its duration was over. -/
def NeverEarly (r : Request) (s : Sleepers χ) : Prop :=
  ∀ c k t, s.calls c = some k → k.request = r → (c, t) ∈ s.scheduled →
    k.began.toNat * 10 ^ 6 + r.duration ≤ t.toNat * 10 ^ 6

end Sleepers

end Captain
