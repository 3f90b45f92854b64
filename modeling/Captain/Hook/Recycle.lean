import Captain.Hook.Registrations

/-!
# A number that is handed out again

`close` gives the calls that wait on its descriptor to the scheduler and then closes the file. A
woken call looks at `tinfo->cancelled` only, and goes back to `retry`: it makes its system call on
the number, whatever file that is by then.

* `woken_iff`: the runs in which every woken call comes to return -1, without a system call on
  another file, are those in which each retry of a woken call finds the number closed and not handed
  out again, or is a call on the old file that fails for good or is interrupted.
-/

namespace Captain

/-- A call on its way to return -1, without another registration. -/
def CallPc.returning : CallPc → Bool
  | .waiting _ | .resumed _ | .checking | .trying | .timedOut => true
  | .returned n => n = -1
  | _ => false

namespace System

open IOManager Transition

variable {χ : Type} {s s' : System χ} {l : Label χ}

/-- The calls that `close` has woken have made no system call on another file, and come to return
-1. -/
def Refuses (s : System χ) : Prop :=
  ∀ c k, s.calls c = some k → k.woken = true → k.strayed = false ∧ k.pc.returning = true

/-- A woken call that makes its system call finds no file, or the old one and no success. -/
def Refused (s : System χ) : Label χ → Prop
  | .syscall c outcome => ∀ k, s.calls c = some k → k.woken = true →
    s.fds.kernel k.fd = none ∨
      s.opened k.fd = k.file ∧ (outcome = .failed ∨ outcome = .interrupted)
  | _ => True

/-- What holds as long as the retries are refused. -/
structure Kept (s : System χ) : Prop where
  ledger : ∃ S, Ledger s S
  strayed : ∀ c k, s.calls c = some k → k.strayed = false
  returning : ∀ c k, s.calls c = some k → k.woken = true → k.pc.returning = true

theorem isCallAt_of_isCall {c : Nat} {t : Task (Lambda χ) (Waiter χ)} (h : t.isCall c = true) :
    ∃ n, t.isCallAt c n = true := by
  unfold Task.isCall at h
  split at h
  · rename_i c' n
    exact ⟨n, by simpa [Task.isCallAt] using h⟩
  · cases h

/-- `close` wakes calls that are waiting. -/
theorem Ledger.waiting_of_wake {S : Nat → Slots Unit (Lambda χ) (Waiter χ)} (h : Ledger s S)
    {j c : Nat} {rt : Bool} (hstep : Threads.Step s.events (.lock (.desc j) rt) s'.events)
    (hin : (s'.events.mgr.scheduled.drop s.events.mgr.scheduled.length).any
      (fun t => t.2.isCall c) = true) :
    ∃ k timer, s.calls c = some k ∧ k.pc = .waiting timer := by
  obtain ⟨t, ht, htc⟩ := List.any_eq_true.mp hin
  obtain ⟨n, htn⟩ := isCallAt_of_isCall htc
  obtain ⟨S', -, ⟨out, hout⟩, hlaw⟩ := hstep.sends h.inv
  -- what is given away was registered before the step
  have hle := times_mono hlaw c n
  have hmore : times c n (s.events.registers (.lock (.desc j) rt)) = 0 := by
    apply times_eq_zero
    rintro ⟨u, hu, huc⟩
    obtain ⟨k, timer, hlock, -⟩ := h.registers hu huc
    cases hlock
  have hpos : 0 < times c n (out : Multiset (EventTask χ)) := by
    rw [← hout, List.drop_left] at ht
    exact times_pos.mpr ⟨t, ht, htn⟩
  rw [times_add, hmore, Threads.known, ← hout, ← Multiset.coe_add, times_add, times_add,
    Threads.known, times_add] at hle
  obtain ⟨u, hu, huc⟩ := times_pos.mp (show 0 < times c n (pending s.events.mgr.next S) by omega)
  obtain ⟨k, timer, hk, hpc, -⟩ := h.waiting u hu c n huc
  exact ⟨k, timer, hk, hpc⟩

theorem answer_woken (k : Call) (outcome : Outcome) (other : Bool) :
    (answer k outcome other).woken = k.woken := by
  cases outcome <;> rfl

theorem answer_strayed (k : Call) (outcome : Outcome) (other : Bool) :
    (answer k outcome other).strayed = (k.strayed || k.woken && other) := by
  cases outcome <;> rfl

/-- A system call of a woken call that is refused. -/
theorem answer_refused {k : Call} (hpc : k.pc = .trying) {outcome : Outcome}
    (h : outcome = .failed ∨ outcome = .interrupted) (other : Bool) :
    (answer k outcome other).pc.returning = true := by
  rcases h with rfl | rfl
  · rfl
  · rw [answer, hpc]
    rfl

/-- **Step lemma.** -/
theorem Kept.step (h : Kept s) (hl : Refused s l) (heff : Effect s l s') : Kept s' := by
  obtain ⟨⟨S, hS⟩, hstrayed, hreturning⟩ := h
  have hcall : ∀ c k', s'.calls c = some k' →
      k'.strayed = false ∧ (k'.woken = true → k'.pc.returning = true) := by
    intro c k' hk'
    rcases heff.of_call hk' with ⟨-, fd, event, timeout, file, rfl⟩ | ⟨k, hk, hmove⟩
    · exact ⟨rfl, nofun⟩
    have hs := hstrayed c k hk
    have hr := hreturning c k hk
    cases hmove with
    | stay | flag => exact ⟨hs, hr⟩
    | wake hstep hin =>
      obtain ⟨k₁, timer, hk₁, hpc⟩ := hS.waiting_of_wake hstep hin
      rw [hk] at hk₁
      cases hk₁
      exact ⟨hs, fun _ => by rw [hpc]; rfl⟩
    | construct hpc | insert hpc =>
      rw [hpc] at hr
      exact ⟨hs, fun hw => absurd (hr hw) Bool.false_ne_true⟩
    | addEventLock hpc =>
      rw [hpc] at hr
      have hnot : k.woken = true → False := fun hw => absurd (hr hw) Bool.false_ne_true
      split <;> exact ⟨hs, fun hw => (hnot hw).elim⟩
    | resume => exact ⟨hs, fun _ => rfl⟩
    | cancel hpc =>
      refine ⟨hs, fun hw => ?_⟩
      rcases hpc with ⟨-, rfl⟩ | ⟨-, rfl⟩ <;> rfl
    | check =>
      refine ⟨hs, fun _ => ?_⟩
      dsimp only
      split <;> rfl
    | @syscall hpc outcome hnone =>
      rw [answer_strayed, answer_woken, hs]
      cases hw : k.woken with
      | false => exact ⟨rfl, nofun⟩
      | true =>
        rcases hl k hk hw with hfile | ⟨hfile, hout⟩
        · rw [hfile]
          exact ⟨rfl, fun _ => answer_refused hpc (Or.inl (hnone hfile)) _⟩
        · rw [hfile, bne_self_eq_false, Bool.and_false]
          exact ⟨rfl, fun _ => answer_refused hpc hout _⟩
  exact ⟨heff.ledger hS, fun c k hk => (hcall c k hk).1, fun c k hk => (hcall c k hk).2⟩

/-- A woken call that is not refused has strayed, or returns something else, or waits again. -/
theorem not_refuses (hl : ¬Refused s l) (hstep : Step s l s') : ¬Refuses s' := by
  intro hsafe
  cases l with
  | syscall c outcome =>
    simp only [Refused, not_forall] at hl
    obtain ⟨k, hk, hw, hnot⟩ := hl
    obtain ⟨hopen, hsame⟩ := not_or.mp hnot
    simp only [Step, next, hk, Option.bind_some] at hstep
    split at hstep <;> cases hstep
    obtain ⟨hs, hr⟩ := hsafe c _ ((setCall_calls ..).trans (if_pos rfl))
      (by rw [answer_woken, hw])
    rw [answer_strayed, hw, Bool.true_and, Bool.or_eq_false_iff, Bool.and_eq_false_iff] at hs
    rcases hs.2 with hnone | hfile
    · rw [Option.isSome_eq_false_iff, Option.isNone_iff_eq_none] at hnone
      exact hopen hnone
    · have hfile := bne_eq_false_iff_eq.mp hfile
      cases outcome with
      | done n =>
        have hn : ((n : Int) = -1) := of_decide_eq_true hr
        omega
      | again =>
        simp only [answer] at hr
        split at hr <;> cases hr
      | interrupted => exact hsame ⟨hfile, Or.inr rfl⟩
      | failed => exact hsame ⟨hfile, Or.inl rfl⟩
  | _ => exact hl trivial

theorem kept_init (now : UInt64) (kernel : Kernel) : Kept (init now kernel : System χ) where
  ledger := ⟨_, ledger_init now kernel⟩
  strayed c k hk := by cases hk
  returning c k hk := by cases hk

/-- **Recycled numbers.** The runs from any open files, in any order of the steps of all parties, in
whose states no woken call has made its system call on another file, or comes to anything but
returning -1, are those in which every retry of a woken call is refused. -/
theorem woken_iff (now : UInt64) (kernel : Kernel) (ls : List (Label χ)) (s : System χ) :
    Run (fun u l v => Step u l v ∧ Refuses v) (init now kernel) ls s ↔
      Run (Guard Refused Step) (init now kernel) ls s := by
  apply Run.into_iff (I := Kept) ?_ ?_ (kept_init now kernel)
  · intro u l v hu hl hstep
    have hv := hu.step hl hstep.effect
    exact ⟨hv, fun c k hk hw => ⟨hv.strayed c k hk, hv.returning c k hk hw⟩⟩
  · intro u l v _ hl hstep
    exact not_refuses hl hstep

/-- A call waits on a socket. The socket is closed, which wakes the call, and another one is opened
under the same number before the call goes on. -/
def recycled : List (Label Nat) :=
  [.socket 0 5 ⟨true, 0⟩, .adopt 0, .begin 0 5 .READ true SO_RCVTIMEO, .syscall 0 .again,
    .addEventFind 0, .addEventLock 0 true, .close 0 5 true, .cancelAllFind 0, .cancelAllLock 0 true,
    .del 0, .close_f 0, .socket 0 5 ⟨true, 0⟩, .adopt 0, .resume 0, .cancel 0, .check 0,
    .syscall 0 (.done 3)]

/-- The call reads from the new socket. -/
theorem not_woken : ∃ s : System Nat, Run Step (init 1000 fun _ => none) recycled s ∧
    (∃ k, s.calls 0 = some k ∧ k.woken = true ∧ k.strayed = true ∧ k.pc = .returned 3) ∧
      ¬Refuses s := by
  have hexec : (exec next (init 1000 fun _ => none : System Nat) recycled).any (fun s =>
      ∃ k ∈ s.calls 0, k.woken = true ∧ k.strayed = true ∧ k.pc = .returned 3) = true := by
    decide +kernel
  obtain ⟨s, hrun, hs⟩ := Run.of_exec_any (fun _ _ _ => id) hexec
  obtain ⟨k, hk, hw, hstrayed, hpc⟩ := of_decide_eq_true hs
  refine ⟨s, hrun, ⟨k, hk, hw, hstrayed, hpc⟩, ?_⟩
  intro hsafe
  rw [(hsafe 0 k hk hw).1] at hstrayed
  cases hstrayed

end System

end Captain
