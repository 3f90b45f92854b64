import Captain.Hook.Sleep

/-!
# When a sleeping fiber is scheduled

`Timely` is the invariant: the timers of the set that sleeping calls have added are due their period
after the call, and the fibers scheduled by a call whose period is its duration are not early.

* `neverEarly_iff`: in all runs the fibers are scheduled in time exactly for the requests whose
  duration is converted without a loss.
-/

namespace Captain.Sleepers

open TimerManager Transition

variable {χ : Type} {s s' : Sleepers χ} {l : Label χ}

/-- The call may have built a timer of `ms` at the reading `now`. -/
def Builds (s : Sleepers χ) (c : Nat) (now ms : UInt64) : Prop :=
  ∃ k, s.calls c = some k ∧ k.began ≤ now ∧ ms = k.request.period ∧
    now.toNat * 10 ^ 6 + k.request.duration < 2 ^ 64 * 10 ^ 6

/-- If the period of the call is its duration, it was over at the reading `t`. -/
def Slept (s : Sleepers χ) (c : Nat) (t : UInt64) : Prop :=
  ∃ k, s.calls c = some k ∧
    (k.request.Exact → k.began.toNat * 10 ^ 6 + k.request.duration ≤ t.toNat * 10 ^ 6)

/-- What the timers carry. -/
structure Armed (s : Sleepers χ) : Prop where
  inv : TimerManager.Inv s.timers.mgr
  began : ∀ c k, s.calls c = some k → k.began ≤ s.timers.clock
  reading : ∀ j now, Threads.Listing (s.timers.pc j) now → now ≤ s.timers.clock
  constructed : ∀ j t ms cb recurring now, s.timers.pc j = .constructed t ms cb recurring now →
    ∀ c, sleeperOf cb = some c → recurring = false ∧ Builds s c now ms
  armed : ∀ t ∈ s.timers.mgr.m_timers, ∀ c, sleeperOf (s.timers.mgr.timer t).m_cb = some c →
    (s.timers.mgr.timer t).m_recurring = false ∧
      ∃ now, Builds s c now (s.timers.mgr.timer t).m_ms ∧
        (s.timers.mgr.timer t).m_next = now + (s.timers.mgr.timer t).m_ms

structure Timely (s : Sleepers χ) : Prop extends Armed s where
  tasks : ∀ c ∈ s.tasks, Slept s c s.timers.clock
  scheduled : ∀ c t, (c, t) ∈ s.scheduled → Slept s c t

/-! ## What a step only adds to -/

structure Grows (s s' : Sleepers χ) : Prop where
  calls : ∀ c k, s.calls c = some k →
    ∃ k', s'.calls c = some k' ∧ k'.request = k.request ∧ k'.began = k.began
  clock : s.timers.clock ≤ s'.timers.clock

theorem Grows.builds (hg : Grows s s') {c : Nat} {now ms : UInt64} (h : Builds s c now ms) :
    Builds s' c now ms := by
  obtain ⟨k, hk, hbegan, hms, hroom⟩ := h
  obtain ⟨k', hk', hrequest, hbegan'⟩ := hg.calls c k hk
  exact ⟨k', hk', hbegan' ▸ hbegan, hrequest ▸ hms, hrequest ▸ hroom⟩

theorem Grows.slept (hg : Grows s s') {c : Nat} {t t' : UInt64} (h : Slept s c t) (ht : t ≤ t') :
    Slept s' c t' := by
  obtain ⟨k, hk, hslept⟩ := h
  obtain ⟨k', hk', hrequest, hbegan⟩ := hg.calls c k hk
  refine ⟨k', hk', fun hexact => ?_⟩
  rw [hrequest] at hexact ⊢
  rw [hbegan]
  exact Nat.le_trans (hslept hexact) (Nat.mul_le_mul_right _ (UInt64.le_iff_toNat_le.mp ht))

theorem Step.grows (h : Step s l s') (hl : s.Clocked l) : Grows s s' := by
  have hclock : ∀ {timers l'}, Threads.Step s.timers l' timers → (∀ now, l' ≠ .tick now) →
      s.timers.clock ≤ timers.clock := by
    intro timers l' hl' hne
    rw [hl'.clock hne]
    exact UInt64.le_refl _
  have hsame : ∀ c k, s.calls c = some k →
      ∃ k', s.calls c = some k' ∧ k'.request = k.request ∧ k'.began = k.began :=
    fun c k hk => ⟨k, hk, rfl, rfl⟩
  cases h with
  | tick now => exact ⟨hsame, hl⟩
  | timer hf hstep =>
    refine ⟨hsame, hclock hstep ?_⟩
    rintro now rfl
    cases hf
  | pass | schedule => exact ⟨hsame, UInt64.le_refl _⟩
  | @begin c hc request =>
    refine ⟨fun c' k hk => ⟨k, ?_, rfl, rfl⟩, UInt64.le_refl _⟩
    rw [setCall_calls, if_neg]
    · exact hk
    · rintro rfl
      rw [hc] at hk
      cases hk
  | @construct c k hc hbuilt t timers hstep =>
    refine ⟨fun c' k' hk' => ?_, hclock hstep nofun⟩
    rw [setCall_calls]
    split
    · rename_i heq
      rw [heq, hc] at hk'
      cases hk'
      exact ⟨_, rfl, rfl, rfl⟩
    · exact ⟨k', hk', rfl, rfl⟩
  | insert hstep => exact ⟨hsame, hclock hstep nofun⟩
  | announce hstep => exact ⟨hsame, hclock hstep nofun⟩

/-! ## The timers -/

/-- A step of the timers that may be made. -/
def Allowed (s s' : Sleepers χ) : TimerManager.Label (Bound χ) Nat Agent → Prop
  | .construct _ _ ms cb recurring => ∀ c, sleeperOf cb = some c →
    recurring = false ∧ Builds s' c s.timers.clock ms
  | .refresh _ t | .reset _ t _ _ => sleeperOf (s.timers.mgr.timer t).m_cb = none
  | _ => True

theorem Armed.of_timers (h : Armed s) (hg : Grows s s')
    (hbegan : ∀ c k, s'.calls c = some k → k.began ≤ s'.timers.clock)
    {l : TimerManager.Label (Bound χ) Nat Agent} (hstep : Threads.Step s.timers l s'.timers)
    (hl : Allowed s s' l) : Armed s' where
  inv := hstep.inv h.inv
  began := hbegan
  reading j now hpc' := by
    rcases hstep.reading hpc' with hpc | rfl
    · exact UInt64.le_trans (h.reading j now hpc) hg.clock
    · exact hg.clock
  constructed j t ms cb recurring now hpc' c hc := by
    rcases hstep.constructed hpc' with hpc | ⟨rfl, rfl⟩
    · obtain ⟨hrec, hbuilds⟩ := h.constructed j t ms cb recurring now hpc c hc
      exact ⟨hrec, hg.builds hbuilds⟩
    · exact hl c hc
  armed t ht c hc := by
    rcases hstep.timers h.inv ht with ⟨hold, heq⟩ | ⟨j, ms, cb, recurring, now, rfl, hpc, heq⟩ |
      ⟨hold, hrearms, hcb⟩
    · rw [heq] at hc ⊢
      obtain ⟨hrec, now, hbuilds, hnext⟩ := h.armed t hold c hc
      exact ⟨hrec, now, hg.builds hbuilds, hnext⟩
    · rw [heq] at hc ⊢
      obtain ⟨hrec, hbuilds⟩ := h.constructed j t ms cb recurring now hpc c hc
      exact ⟨hrec, now, hg.builds hbuilds, rfl⟩
    · -- the timer of a sleeping call is armed once
      rw [hcb] at hc
      obtain ⟨hrec, -⟩ := h.armed t hold c hc
      rcases hrearms.called hrec with ⟨i, rfl⟩ | ⟨i, ms, from_now, rfl⟩
      · cases hl.symm.trans hc
      · cases hl.symm.trans hc

theorem Step.armed (h : Step s l s') (ha : Armed s) (hl : s.Clocked l) : Armed s' := by
  have hg := h.grows hl
  have hold : ∀ c k, s.calls c = some k → k.began ≤ s'.timers.clock := fun c k hk =>
    UInt64.le_trans (ha.began c k hk) hg.clock
  cases h with
  | tick now => exact ha.of_timers hg hold (.tick s.timers now) trivial
  | timer hf hstep =>
    refine ha.of_timers hg hold hstep ?_
    unfold foreign at hf
    split at hf
    · intro c hc
      rw [hc] at hf
      cases hf
    · trivial
    · exact Option.isNone_iff_eq_none.mp hf
    · exact Option.isNone_iff_eq_none.mp hf
    · trivial
    · trivial
    · trivial
    · trivial
    · trivial
    · cases hf
  | pass hpc hrun => exact ha.of_timers hg hold (.pass hpc hrun) trivial
  | @begin c hc request =>
    refine ha.of_timers hg (fun c' k hk => ?_) (.tick s.timers s.timers.clock) trivial
    rw [setCall_calls] at hk
    split at hk
    · cases hk
      exact UInt64.le_refl _
    · exact hold c' k hk
  | @construct c k hc hbuilt t timers hstep =>
    refine ha.of_timers hg (fun c' k' hk' => ?_) hstep ?_
    · rw [setCall_calls] at hk'
      split at hk'
      · cases hk'
        exact hold c k hc
      · exact hold c' k' hk'
    · rintro c' ⟨⟩
      exact ⟨rfl, hg.builds ⟨k, hc, ha.began c k hc, rfl, hl k hc⟩⟩
  | insert hstep => exact ha.of_timers hg hold hstep trivial
  | announce hstep => exact ha.of_timers hg hold hstep trivial
  | schedule => exact ha.of_timers hg hold (.tick s.timers s.timers.clock) trivial

/-! ## The callbacks -/

/-- The fibers scheduled by what a pass without a rollover finds expired have slept. -/
theorem Armed.slept_of_pass (ha : Armed s) {now_ms : UInt64}
    (hin : NotFarBehind s.timers.mgr now_ms) {now_timer : Nat} {m : TimerManager (Bound χ) Nat}
    {expired : List Nat} {cbs : List (Option (Callback (Bound χ) Nat))}
    (hrun : s.timers.mgr.expirePass now_ms now_timer = .ok (m, expired, cbs)) {c : Nat}
    (hc : c ∈ cbs.filterMap sleeperOf) : Slept s c now_ms := by
  obtain ⟨hcbs, hexp⟩ := ha.inv.cbs_of_expirePass hrun
  rw [hcbs] at hc
  obtain ⟨cb, hmem, hsleeper⟩ := List.mem_filterMap.mp hc
  obtain ⟨t, ht, rfl⟩ := List.mem_map.mp hmem
  have hold := hexp.pre.subset ht
  obtain ⟨-, now, ⟨k, hk, hbegan, hms, hroom⟩, hnext⟩ := ha.armed t hold c hsleeper
  have hdue := (hexp.due t hold).mp ht
  rw [(notFarBehind_iff _ _).mp hin, hnext, hms] at hdue
  refine ⟨k, hk, fun hexact => ?_⟩
  have hperiod := hexact.period (by omega)
  have hsum : now.toNat + k.request.period.toNat < UInt64.size := by
    rw [show UInt64.size = 2 ^ 64 from rfl]
    omega
  have hle := UInt64.le_iff_toNat_le.mp (hdue.resolve_left Bool.false_ne_true)
  rw [toNat_add_of_lt hsum] at hle
  rw [UInt64.le_iff_toNat_le] at hbegan
  omega

/-- **Step lemma.** -/
theorem Step.timely (h : Step s l s') (ht : Timely s) (hl : s.Clocked l) (hroll : s.NoRollover l) :
    Timely s' := by
  have hg := h.grows hl
  have hold : ∀ c ∈ s.tasks, Slept s' c s'.timers.clock := fun c hc =>
    hg.slept (ht.tasks c hc) hg.clock
  have hscheduled : ∀ c t, (c, t) ∈ s.scheduled → Slept s' c t := fun c t hc =>
    hg.slept (ht.scheduled c t hc) (UInt64.le_refl _)
  refine ⟨h.armed ht.toArmed hl, ?_, ?_⟩
  · intro c hc
    cases h with
    | @pass i now_ms hpc now_timer m expired cbs hrun =>
      rcases List.mem_append.mp hc with hc | hc
      · exact hold c hc
      · exact hg.slept (ht.slept_of_pass (hroll now_ms hpc) hrun hc)
          (ht.reading (.worker i) now_ms (Or.inr hpc))
    | schedule hn => exact hold c (List.mem_of_mem_eraseIdx hc)
    | _ => exact hold c hc
  · intro c t hc
    cases h with
    | @schedule n c' hn =>
      rcases List.mem_append.mp hc with hc | hc
      · exact hscheduled c t hc
      · cases List.mem_singleton.mp hc
        exact hold c (List.mem_of_getElem? hn)
    | _ => exact hscheduled c t hc

theorem timely_init (now : UInt64) : Timely (init now : Sleepers χ) where
  inv := inv_new now
  began c k hk := by cases hk
  reading j r hpc := by rcases hpc with hpc | hpc <;> cases hpc
  constructed j t ms cb recurring r hpc := by cases hpc
  armed t ht := by cases ht
  tasks c hc := by cases hc
  scheduled c t hc := by cases hc

theorem run_timely {now : UInt64} {ls : List (Label χ)} {s : Sleepers χ}
    (h : Run (Guard (fun s l => s.Clocked l ∧ s.NoRollover l) Step) (init now) ls s) : Timely s :=
  h.invariant (I := Timely) (fun _ _ _ ht hst => hst.2.timely ht hst.1.1 hst.1.2) (timely_init now)

/-! ## Fibers that are scheduled early -/

/-- A call made at `now` adds its timer, and at `f` a worker finds it expired. -/
def earlyLabels (r : Request) (f : UInt64) : List (Label χ) :=
  [.begin 0 r, .construct 0 7, .insert 0, .tick f, .timer (.readClock (.worker 0)),
    .timer (.test (.worker 0)), .pass 0 9, .schedule 0]

/-- A timer that is alone in the set is found expired at its deadline. -/
theorem expirePass_added {φ ω : Type} (t : Nat) {ms now f : UInt64} (cb : Option (Callback φ ω))
    (hclock : now ≤ f) (hdue : now + ms ≤ f) (now_timer : Nat) :
    ∃ m at_front m', (new now).addTimer t ms cb false now = (m, at_front) ∧ m.isEmpty = false ∧
      NotFarBehind m f ∧ m.expirePass f now_timer = .ok (m', [t], [cb]) := by
  obtain ⟨m, at_front, hadd, hinv, hheap, -, hprev, -⟩ :=
    (inv_new now).addTimer_spec (t := t) rfl ms cb false now
  have hset : m.m_timers = [t] := (congrArg (fun x => x.1.m_timers) hadd).symm
  have htimer : m.timer t =
      { m_recurring := false, m_ms := ms, m_next := now + ms, m_cb := cb } := by
    rw [timer_congr hheap, timer_put_self]
  obtain ⟨m', expired, hrun, hexp⟩ :=
    hinv.expirePass_spec f now_timer (Or.inr (by rw [hset]; nofun))
  have hexpired : expired = [t] := by
    have hin : t ∈ expired := by
      rw [hexp.due t (by rw [hset]; exact List.mem_singleton_self t), htimer]
      exact Or.inr hdue
    have hpre := hexp.pre
    rw [hset] at hpre
    rcases List.prefix_cons_iff.mp hpre with rfl | ⟨ts, rfl, hts⟩
    · cases hin
    · rw [List.prefix_nil.mp hts]
  rw [hexpired, List.map_singleton, htimer] at hrun
  refine ⟨m, at_front, m', hadd, ?_, Or.inl ?_, hrun⟩
  · rw [isEmpty, hset]
    rfl
  · rw [hprev]
    exact UInt64.le_iff_toNat_le.mp hclock

/-- A deadline that comes before the duration is over wakes the fiber early. -/
theorem early_run (χ : Type) (r : Request) (now f : UInt64) (hclock : now ≤ f)
    (hroom : now.toNat * 10 ^ 6 + r.duration < 2 ^ 64 * 10 ^ 6) (hdue : now + r.period ≤ f)
    (hearly : f.toNat * 10 ^ 6 < now.toNat * 10 ^ 6 + r.duration) :
    ∃ s : Sleepers χ, Run (Guard (fun s l => s.Clocked l ∧ s.NoRollover l) Step) (init now)
      (earlyLabels r f) s ∧ ¬s.NeverEarly r := by
  obtain ⟨m, at_front, m', hadd, hne, hroll, hrun⟩ := expirePass_added 7
    (some (.plain (.schedule 0)) : Option (Callback (Bound χ) Nat)) hclock hdue 9
  have htest : (if m.isEmpty then Pc.idle else Pc.expiring f : Pc (Bound χ) Nat) = .expiring f := by
    rw [hne]
    rfl
  refine ⟨_, .cons ⟨⟨trivial, trivial⟩, .begin rfl r⟩ <|
    .cons ⟨⟨?_, trivial⟩, .construct (k := ⟨r, now, false⟩) rfl rfl (.construct rfl 7 _ _ _)⟩ <|
    .cons ⟨⟨trivial, trivial⟩, .insert (.insert rfl rfl hadd)⟩ <|
    .cons ⟨⟨hclock, trivial⟩, .tick _ f⟩ <|
    .cons ⟨⟨trivial, trivial⟩, .timer rfl (.readClock rfl)⟩ <|
    .cons ⟨⟨trivial, trivial⟩, .timer rfl (.test rfl)⟩ <|
    .cons ⟨⟨trivial, ?_⟩, .pass htest hrun⟩ <|
    .cons ⟨⟨trivial, trivial⟩, .schedule (c := 0) rfl⟩ (.nil _), fun hnever => ?_⟩
  · intro k hk
    cases hk
    exact hroom
  · intro now_ms hpc
    cases htest.symm.trans hpc
    exact hroll
  · have hin : (0, f) ∈ [] ++ [(0, f)] := List.mem_singleton_self _
    exact absurd hearly (Nat.not_lt_of_le (hnever 0 ⟨r, now, true⟩ f rfl rfl hin))

theorem early_of_not_exact (χ : Type) {r : Request} (h : ¬r.Exact) :
    ∃ (now : UInt64) (ls : List (Label χ)) (s : Sleepers χ),
      Run (Guard (fun s l => s.Clocked l ∧ s.NoRollover l) Step) (init now) ls s ∧
        ¬s.NeverEarly r := by
  obtain ⟨hpos, hlt, hshort | ⟨hlong, hroom⟩⟩ := Request.not_exact h
  · -- at the end of the period the duration is not over
    have hzero : (0 : UInt64).toNat * 10 ^ 6 + r.duration = r.duration := by
      rw [UInt64.toNat_zero, Nat.zero_mul, Nat.zero_add]
    have hdue : 0 + r.period ≤ r.period := by
      rw [UInt64.zero_add]
      exact UInt64.le_refl _
    obtain ⟨s, hearly⟩ := early_run χ r 0 r.period UInt64.zero_le (hzero.symm ▸ hlt) hdue
      (hzero.symm ▸ hshort)
    exact ⟨_, _, s, hearly⟩
  · -- the deadline has wrapped around to a time before the call
    have hnow : (2 ^ 31 : UInt64).toNat = 2 ^ 31 := rfl
    have hdue : 2 ^ 31 + r.period ≤ 2 ^ 31 := by
      have hlt := r.period.toNat_lt
      rw [UInt64.le_iff_toNat_le, UInt64.toNat_add, hnow]
      omega
    obtain ⟨s, hearly⟩ := early_run χ r _ _ (UInt64.le_refl _) (by rwa [hnow]) hdue
      (Nat.lt_add_of_pos_right hpos)
    exact ⟨_, _, s, hearly⟩

/-- **Sleeping.** For every request: in all runs under a clock that does not go back and leaves room
for the requested durations, and without a pass that finds a rollover, the fibers of the calls with
this request are scheduled when its duration is over, exactly when its conversion to milliseconds
loses nothing. -/
theorem neverEarly_iff (χ : Type) (r : Request) :
    (∀ (now : UInt64) (ls : List (Label χ)) (s : Sleepers χ),
      Run (Guard (fun s l => s.Clocked l ∧ s.NoRollover l) Step) (init now) ls s →
        s.NeverEarly r) ↔ r.Exact := by
  constructor
  · intro hnever
    by_contra hexact
    obtain ⟨now, ls, s, hrun, hearly⟩ := early_of_not_exact χ hexact
    exact hearly (hnever now ls s hrun)
  · rintro hexact now ls s hrun c k t hk rfl hmem
    obtain ⟨k', hk', hslept⟩ := (run_timely hrun).scheduled c t hmem
    rw [hk] at hk'
    cases hk'
    exact hslept hexact

/-- 2147484 seconds. -/
def longReq : Timespec := ⟨2147484, 0, by decide, by decide, by decide⟩

/-- `sleep(4294968)` is over after 704 ms and `usleep(999)` at once, and so is `nanosleep` with
`longReq` when the clock reads `2 ^ 31` ms. -/
theorem not_neverEarly :
    (∃ s : Sleepers Nat, Run (Guard Clocked Step) (init 0) (earlyLabels (.sleep 4294968) 704) s ∧
      ¬s.NeverEarly (.sleep 4294968)) ∧
    (∃ s : Sleepers Nat, Run (Guard Clocked Step) (init 0) (earlyLabels (.usleep 999) 0) s ∧
      ¬s.NeverEarly (.usleep 999)) ∧
    ∃ s : Sleepers Nat, Run (Guard Clocked Step) (init 2147483648)
      (earlyLabels (.nanosleep longReq) 2147483648) s ∧ ¬s.NeverEarly (.nanosleep longReq) := by
  have hclocked : ∀ (s : Sleepers Nat) (l : Label Nat) (s' : Sleepers Nat),
      Guard (fun s l => s.Clocked l ∧ s.NoRollover l) Step s l s' → Guard Clocked Step s l s' :=
    fun s l s' h => ⟨h.1.1, h.2⟩
  refine ⟨?_, ?_, ?_⟩
  · obtain ⟨s, hrun, hearly⟩ := early_run Nat (.sleep 4294968) 0 704 (by decide)
      (by decide) (by decide) (by decide)
    exact ⟨s, hrun.mono hclocked, hearly⟩
  · obtain ⟨s, hrun, hearly⟩ := early_run Nat (.usleep 999) 0 0 (by decide)
      (by decide) (by decide) (by decide)
    exact ⟨s, hrun.mono hclocked, hearly⟩
  · obtain ⟨s, hrun, hearly⟩ := early_run Nat (.nanosleep longReq) 2147483648 2147483648
      (by decide) (by decide) (by decide) (by decide)
    exact ⟨s, hrun.mono hclocked, hearly⟩

end Captain.Sleepers
