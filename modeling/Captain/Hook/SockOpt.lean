import Captain.Hook.Sleep

/-!
# The hooked `setsockopt` (`captain/hook.cpp`)

The timeouts of a socket are kept twice: by the kernel, and in milliseconds by the `FdCtx` from
which `do_io` takes them. The call sets the one in the `FdCtx`, and then asks the kernel.

* `inForce_iff`: along a sequence of calls both say the same exactly when every call meets `Ok`.
-/

namespace Captain

open Transition

/-- A `struct timeval`. -/
structure Timeval where
  tv_sec : Int64
  tv_usec : Int64
  deriving DecidableEq

def SOL_SOCKET : Nat := 1

namespace Timeval

def zero : Timeval := ⟨0, 0⟩

def Valid (v : Timeval) : Prop :=
  0 ≤ v.tv_sec.toInt ∧ 0 ≤ v.tv_usec.toInt ∧ v.tv_usec.toInt < 10 ^ 6

instance (v : Timeval) : Decidable v.Valid := inferInstanceAs (Decidable (_ ∧ _ ∧ _))

/-- What `setsockopt` passes to `setTimeout`, the product being what the machine computes. -/
def timeout (v : Timeval) : UInt64 := (v.tv_sec * 1000 + v.tv_usec / 1000).toUInt64

/-- The duration in microseconds. -/
def micros (v : Timeval) : Nat := v.tv_sec.toInt.toNat * 10 ^ 6 + v.tv_usec.toInt.toNat

end Timeval

/-- A socket: its context, and the timeouts that are in force in the kernel, by option. -/
structure SockOpts where
  ctx : Option FdCtx
  inForce : Nat → Timeval

namespace SockOpts

/-- `setsockopt`; `rt` is what `setsockopt_f` returns. -/
def setsockopt (s : SockOpts) (hook_enable : Bool) (level optname : Nat) (v : Timeval) (rt : Int) :
    SockOpts where
  ctx :=
    if hook_enable ∧ level = SOL_SOCKET ∧ (optname = SO_RCVTIMEO ∨ optname = SO_SNDTIMEO) then
      s.ctx.map fun ctx => ctx.setTimeout optname v.timeout
    else s.ctx
  inForce := if rt = 0 ∧ level = SOL_SOCKET then Function.update s.inForce optname v else s.inForce

/-- A new socket. -/
def start (fd : Nat) : SockOpts := ⟨some (FdCtx.new fd (some true)), fun _ => .zero⟩

end SockOpts

inductive TimeoutOption
  | recv
  | send
  deriving DecidableEq, Repr

def TimeoutOption.optname : TimeoutOption → Nat
  | .recv => SO_RCVTIMEO
  | .send => SO_SNDTIMEO

/-- A hooked call with a timeout, and what `setsockopt_f` returns to it. -/
structure SockOptCall where
  opt : TimeoutOption
  v : Timeval
  rt : Int
  deriving DecidableEq

namespace SockOpts

def call (s : SockOpts) (c : SockOptCall) : SockOpts :=
  s.setsockopt true SOL_SOCKET c.opt.optname c.v c.rt

/-- The timeout that `do_io` takes. -/
def used (s : SockOpts) (opt : TimeoutOption) : Option UInt64 :=
  match Entry.of true opt.optname s.ctx with
  | .managed timeout => some timeout
  | _ => none

/-- No timeout is -1; another timeout is the duration in milliseconds, rounded up. -/
def Agree (v : Timeval) (timeout : Option UInt64) : Prop :=
  (v = .zero → timeout = some (-1)) ∧ (v.Valid → v ≠ .zero → ∃ ms, timeout = some ms ∧
    ms ≠ -1 ∧ v.micros ≤ ms.toNat * 1000 ∧ ms.toNat * 1000 < v.micros + 1000)

/-- What a call should do. -/
structure Right (s : SockOpts) (c : SockOptCall) (t : SockOpts) : Prop where
  failed : c.rt ≠ 0 → ∀ opt, t.used opt = s.used opt
  other : ∀ opt, opt ≠ c.opt → t.used opt = s.used opt
  agree : ∀ opt, Agree (t.inForce opt.optname) (t.used opt)

/-- A call that succeeds has a timeout of whole milliseconds, not zero and below `2^64 - 1`; one
that fails has the timeout that is set already. -/
def Ok (s : SockOpts) (c : SockOptCall) : Prop :=
  if c.rt = 0 then
    c.v.Valid → c.v ≠ .zero ∧ 1000 ∣ c.v.tv_usec.toInt.toNat ∧ c.v.micros / 1000 < 2 ^ 64 - 1
  else s.used c.opt = some c.v.timeout

end SockOpts

namespace Timeval

theorem toNat_timeout {v : Timeval} (h : v.Valid) :
    v.timeout.toNat = v.micros / 1000 % 2 ^ 64 := by
  obtain ⟨hsec, husec, -⟩ := h
  have hnat := Request.toNat_toUInt64 (v.tv_sec * 1000 + v.tv_usec / 1000)
  have hthousand : (1000 : Int64).toInt = 1000 := rfl
  rw [Int64.toInt_add, Int64.toInt_mul, Request.toInt_div_thousand husec, hthousand,
    Int.bmod_add_bmod, Int.bmod_def] at hnat
  have hmicros : ((v.micros / 1000 : Nat) : Int) =
      v.tv_sec.toInt * 1000 + v.tv_usec.toInt / 1000 := by
    rw [micros]
    omega
  rw [timeout]
  split at hnat <;> omega

/-- A timeout is exact when it is not zero, of whole milliseconds and not too large. -/
theorem agree_timeout {v : Timeval} (h : v.Valid) : SockOpts.Agree v (some v.timeout) ↔
    v ≠ .zero ∧ 1000 ∣ v.tv_usec.toInt.toNat ∧ v.micros / 1000 < 2 ^ 64 - 1 := by
  have htimeout := toNat_timeout h
  have hmod : v.micros % 1000 = v.tv_usec.toInt.toNat % 1000 := by
    rw [micros]
    omega
  have hnone : v.timeout = -1 ↔ v.micros / 1000 % 2 ^ 64 = 2 ^ 64 - 1 := by
    rw [← UInt64.toNat_inj, htimeout]
    rfl
  constructor
  · rintro ⟨hzero, hwait⟩
    have hne : v ≠ .zero := by
      rintro rfl
      exact absurd (hzero rfl) (by decide)
    obtain ⟨ms, hms, hsome, hle, hlt⟩ := hwait h hne
    cases hms
    rw [Ne, hnone] at hsome
    rw [htimeout] at hle hlt
    exact ⟨hne, by omega, by omega⟩
  · rintro ⟨hne, hdvd, hlt⟩
    refine ⟨fun hzero => absurd hzero hne, fun _ _ => ⟨_, rfl, ?_, ?_, ?_⟩⟩
    · rw [Ne, hnone]
      omega
    · omega
    · omega

end Timeval

/-! ## The calls -/

namespace SockOpts

variable {s : SockOpts}

/-- `do_io` takes the timeout from the context. -/
def Managed (s : SockOpts) : Prop := ∃ ctx, s.ctx = some ctx ∧ ctx.m_isClosed = false ∧
  ctx.m_isSocket = true ∧ ctx.m_userNonblock = false

theorem used_eq {ctx : FdCtx} (hctx : s.ctx = some ctx) (hclosed : ctx.m_isClosed = false)
    (hsocket : ctx.m_isSocket = true) (hnonblock : ctx.m_userNonblock = false)
    (opt : TimeoutOption) : s.used opt = some (ctx.getTimeout opt.optname) := by
  unfold used Entry.of
  simp [hctx, hclosed, hsocket, hnonblock]

theorem optname_isTimeout (opt : TimeoutOption) :
    opt.optname = SO_RCVTIMEO ∨ opt.optname = SO_SNDTIMEO := by
  cases opt with
  | recv => exact .inl rfl
  | send => exact .inr rfl

theorem getTimeout_setTimeout (ctx : FdCtx) (opt opt' : TimeoutOption) (v : UInt64) :
    (ctx.setTimeout opt.optname v).getTimeout opt'.optname =
      if opt' = opt then v else ctx.getTimeout opt'.optname := by
  cases opt <;> cases opt' <;> rfl

theorem setTimeout_frame (ctx : FdCtx) (type : Nat) (v : UInt64) :
    (ctx.setTimeout type v).m_isClosed = ctx.m_isClosed ∧
      (ctx.setTimeout type v).m_isSocket = ctx.m_isSocket ∧
      (ctx.setTimeout type v).m_userNonblock = ctx.m_userNonblock := by
  unfold FdCtx.setTimeout
  split <;> exact ⟨rfl, rfl, rfl⟩

/-- A call sets the timeout of its direction, whatever `setsockopt_f` returns. -/
theorem call_used (h : s.Managed) (c : SockOptCall) : (s.call c).Managed ∧
    ∀ opt, (s.call c).used opt = if opt = c.opt then some c.v.timeout else s.used opt := by
  obtain ⟨ctx, hctx, hclosed, hsocket, hnonblock⟩ := h
  have hctx' : (s.call c).ctx = some (ctx.setTimeout c.opt.optname c.v.timeout) := by
    unfold call setsockopt
    rw [if_pos ⟨rfl, rfl, optname_isTimeout c.opt⟩, hctx]
    rfl
  obtain ⟨hclosed', hsocket', hnonblock'⟩ := setTimeout_frame ctx c.opt.optname c.v.timeout
  rw [hclosed] at hclosed'
  rw [hsocket] at hsocket'
  rw [hnonblock] at hnonblock'
  refine ⟨⟨_, hctx', hclosed', hsocket', hnonblock'⟩, fun opt => ?_⟩
  rw [used_eq hctx' hclosed' hsocket' hnonblock', getTimeout_setTimeout,
    used_eq hctx hclosed hsocket hnonblock]
  split <;> rfl

/-- The kernel takes the timeout if `setsockopt_f` succeeds. -/
theorem call_inForce (s : SockOpts) (c : SockOptCall) (opt : TimeoutOption) :
    (s.call c).inForce opt.optname =
      if c.rt = 0 ∧ opt = c.opt then c.v else s.inForce opt.optname := by
  unfold call setsockopt
  dsimp only
  by_cases hrt : c.rt = 0
  · rw [if_pos ⟨hrt, rfl⟩]
    by_cases hopt : opt = c.opt
    · rw [if_pos ⟨hrt, hopt⟩, hopt, Function.update_self]
    · have hne : opt.optname ≠ c.opt.optname := by
        intro heq
        revert heq hopt
        cases opt <;> cases c.opt <;> decide
      rw [if_neg fun hand => hopt hand.2, Function.update_of_ne hne]
  · rw [if_neg fun hand => hrt hand.1, if_neg fun hand => hrt hand.1]

theorem agree_of_invalid {v : Timeval} (h : ¬v.Valid) (timeout : Option UInt64) :
    Agree v timeout := by
  refine ⟨?_, fun hvalid => absurd hvalid h⟩
  rintro rfl
  exact absurd (by decide) h

def Agreed (s : SockOpts) : Prop :=
  s.Managed ∧ ∀ opt, Agree (s.inForce opt.optname) (s.used opt)

/-- **Step lemma.** Where both say the same, a call is right exactly when it meets `Ok`. -/
theorem right_iff (h : s.Agreed) (c : SockOptCall) : Right s c (s.call c) ↔ s.Ok c := by
  obtain ⟨hmanaged, hagree⟩ := h
  obtain ⟨-, hused⟩ := call_used hmanaged c
  have hother : ∀ opt, opt ≠ c.opt → (s.call c).used opt = s.used opt := fun opt hopt => by
    rw [hused, if_neg hopt]
  unfold Ok
  by_cases hrt : c.rt = 0
  · rw [if_pos hrt]
    constructor
    · intro hright hvalid
      have hself := hright.agree c.opt
      rw [call_inForce, if_pos ⟨hrt, rfl⟩, hused, if_pos rfl] at hself
      exact (Timeval.agree_timeout hvalid).mp hself
    · intro hok
      refine ⟨fun hfailed => absurd hrt hfailed, hother, fun opt => ?_⟩
      rw [call_inForce, hused]
      by_cases hopt : opt = c.opt
      · rw [if_pos ⟨hrt, hopt⟩, if_pos hopt]
        by_cases hvalid : c.v.Valid
        · exact (Timeval.agree_timeout hvalid).mpr (hok hvalid)
        · exact agree_of_invalid hvalid _
      · rw [if_neg fun hand => hopt hand.2, if_neg hopt]
        exact hagree opt
  · rw [if_neg hrt]
    constructor
    · intro hright
      have hself := hright.failed hrt c.opt
      rw [hused, if_pos rfl] at hself
      exact hself.symm
    · intro hok
      have hkept : ∀ opt, (s.call c).used opt = s.used opt := by
        intro opt
        by_cases hopt : opt = c.opt
        · rw [hused, if_pos hopt, hopt, hok]
        · exact hother opt hopt
      refine ⟨fun _ => hkept, hother, fun opt => ?_⟩
      rw [call_inForce, if_neg fun hand => hrt hand.1, hkept]
      exact hagree opt

theorem managed_start (fd : Nat) : (start fd).Managed := ⟨_, rfl, rfl, rfl, rfl⟩

theorem agree_start (fd : Nat) (opt : TimeoutOption) :
    Agree ((start fd).inForce opt.optname) ((start fd).used opt) :=
  ⟨fun _ => by cases opt <;> rfl, fun _ hne => absurd rfl hne⟩

/-- **Timeouts.** On a new socket, the calls of a sequence are all right exactly when each of them
meets `Ok`. -/
theorem inForce_iff (fd : Nat) (cs : List SockOptCall) (s : SockOpts) :
    Run (fun u c v => u.call c = v ∧ Right u c v) (start fd) cs s ↔
      Run (Guard Ok fun u c v => u.call c = v) (start fd) cs s := by
  refine Run.steps_iff (I := Agreed) ?_ ?_ ⟨managed_start fd, agree_start fd⟩
  · rintro u c v hagreed hok rfl
    have hright := (right_iff hagreed c).mpr hok
    exact ⟨⟨(call_used hagreed.1 c).1, hright.agree⟩, hright⟩
  · rintro u c v hagreed hbad rfl hright
    exact hbad ((right_iff hagreed c).mp hright)

/-- A timeout of zero is no timeout for the kernel, and one of 0 ms for `do_io`. -/
theorem not_agree : ¬∀ (fd : Nat) (cs : List SockOptCall) (s : SockOpts),
    Run (fun u c v => u.call c = v) (start fd) cs s →
      ∀ opt, Agree (s.inForce opt.optname) (s.used opt) := by
  intro h
  have hrun : Run (fun u c v => call u c = v) (start 5) [⟨.recv, .zero, 0⟩] _ :=
    .cons rfl (.nil _)
  exact absurd ((h 5 _ _ hrun .recv).1 rfl) (by decide)

end SockOpts

end Captain
