import Captain.Timer.Announce
import Captain.Timer.Runs

/-!
# No timer fires before its delay is over

A timer is armed at a clock reading for a period, both 64-bit, and its deadline is their sum, which
wraps around. The expiry pass takes the timers whose deadline is reached, or all of them when
`detectClockRollover` reports that the clock went back; the test compares with
`m_previouseTime - 60 * 60 * 1000`, which wraps around below an hour.

* `fires_in_time`: in every run in which no sum of a reading and a period overflows and no rollover
  is reported, each timer that is fired was armed at least its period ago, as natural numbers.
* `early_of_overflow`: a timer whose sum overflows is fired early by an expiry pass that reads the
  very time at which it was armed.
-/

namespace Captain.TimerManager

open OrderedSet Transition

variable {φ ω : Type}

/-- The end of the period for which a timer is armed. -/
def due (s : Traced φ ω) (t : Nat) : Nat := (s.armed t).toNat + (s.mgr.timer t).m_ms.toNat

/-- The reading is not so far behind `m_previouseTime` that a rollover is reported: behind it not
at all, or at most an hour when `m_previouseTime` is an hour or later. -/
def NotFarBehind (m : TimerManager φ ω) (now_ms : UInt64) : Prop :=
  m.m_previouseTime.toNat ≤ now_ms.toNat ∨
    60 * 60 * 1000 ≤ m.m_previouseTime.toNat ∧
      m.m_previouseTime.toNat ≤ now_ms.toNat + 60 * 60 * 1000

/-- The sum that a call writes into `m_next` does not overflow, and an expiry pass finds no
rollover. -/
def InTime (s : Traced φ ω) : Call φ ω → Prop
  | .addTimer _ ms _ _ now => now.toNat + ms.toNat < UInt64.size
  | .addConditionTimer _ ms _ _ _ now => now.toNat + ms.toNat < UInt64.size
  | .cancel _ => True
  | .refresh t now => (s.mgr.timer t).m_cb.isSome →
    now.toNat + (s.mgr.timer t).m_ms.toNat < UInt64.size
  | .reset t ms from_now now => (s.mgr.timer t).m_cb.isSome →
    (if from_now then now else s.armed t).toNat + ms.toNat < UInt64.size
  | .listExpiredCb now_ms _ => (s.mgr.m_timers ≠ [] → NotFarBehind s.mgr now_ms) ∧
    ∀ t ∈ s.mgr.m_timers, (s.mgr.timer t).m_recurring = true →
      (s.mgr.timer t).m_next ≤ now_ms →
        now_ms.toNat + (s.mgr.timer t).m_ms.toNat < UInt64.size

/-- The runs considered. -/
abbrev InTimeStep : Traced φ ω → Call φ ω × Ret φ ω → Traced φ ω → Prop :=
  Guard (fun s l => InTime s l.1) Step

theorem notFarBehind_iff (m : TimerManager φ ω) (now_ms : UInt64) :
    NotFarBehind m now_ms ↔ (m.detectClockRollover now_ms).2 = false := by
  have hlt := m.m_previouseTime.toNat_lt
  have hlt' := now_ms.toNat_lt
  have hsub : (m.m_previouseTime - 60 * 60 * 1000).toNat =
      (2 ^ 64 - 60 * 60 * 1000 + m.m_previouseTime.toNat) % 2 ^ 64 := by
    rw [UInt64.toNat_sub]
    rfl
  simp only [NotFarBehind, detectClockRollover, Bool.and_eq_false_iff, decide_eq_false_iff_not,
    UInt64.lt_iff_toNat_lt, hsub]
  omega

/-! ## The sums of the timers in the set -/

/-- No timer of the set has a deadline that wrapped around. -/
def Whole (s : Traced φ ω) : Prop := ∀ t ∈ s.mgr.m_timers, due s t < UInt64.size

theorem Good.next_of_whole {s : Traced φ ω} (h : Good s) (hw : Whole s) {t : Nat}
    (ht : t ∈ s.mgr.m_timers) : (s.mgr.timer t).m_next.toNat = due s t := by
  rw [h.next_eq t ht, toNat_add_of_lt (hw t ht), due]

/-- Only the timer `t` is written. -/
theorem Whole.put {s : Traced φ ω} (hw : Whole s) {s' : Traced φ ω} {t : Nat} {v : Timer φ ω}
    (hheap : s'.mgr.heap = (s.mgr.put t v).heap)
    (hmem : ∀ y, y ∈ s'.mgr.m_timers → y = t ∨ y ∈ s.mgr.m_timers)
    (harmed : ∀ a, a ≠ t → s'.armed a = s.armed a)
    (hv : t ∈ s'.mgr.m_timers → (s'.armed t).toNat + v.m_ms.toNat < UInt64.size) : Whole s' := by
  intro y hy
  unfold due
  rw [timer_congr hheap]
  by_cases hyt : y = t
  · subst hyt
    rw [timer_put_self]
    exact hv hy
  · rw [timer_put_ne _ _ hyt, harmed y hyt]
    exact hw y ((hmem y hy).resolve_left hyt)

theorem Whole.congr {s s' : Traced φ ω} (hw : Whole s) (hmgr : s'.mgr = s.mgr)
    (harmed : ∀ t ∈ s.mgr.m_timers, s'.armed t = s.armed t) : Whole s' := by
  intro t ht
  rw [hmgr] at ht
  rw [due, hmgr, harmed t ht]
  exact hw t ht

theorem Whole.addTimer {s s' : Traced φ ω} (h : Good s) (hw : Whole s) {t : Nat}
    (ht : s.mgr.heap t = none) {ms now : UInt64} {cb : Option (Callback φ ω)} {recurring : Bool}
    (hmgr : (s.mgr.addTimer t ms cb recurring now).1 = s'.mgr)
    (harmed : s'.armed = fun a => if a = t then now else s.armed a)
    (hin : now.toNat + ms.toNat < UInt64.size) : Whole s' := by
  obtain ⟨m', at_front, hrun, -, hheap, hmem, -⟩ := h.inv.addTimer_spec ht ms cb recurring now
  rw [hrun] at hmgr
  dsimp only at hmgr
  subst hmgr
  refine hw.put hheap (fun y hy => (hmem y).mp hy) ?_ fun _ => ?_
  · intro a ha
    rw [harmed]
    exact if_neg ha
  · rw [harmed]
    simpa using hin

theorem Whole.cancel {s s' : Traced φ ω} (h : Good s) (hw : Whole s) {t : Nat} {b : Bool}
    (hrun : s.mgr.cancel t = .ok (s'.mgr, b)) (harmed : s'.armed = s.armed) : Whole s' := by
  rcases h.inv.of_cancel hrun with hsame | ⟨-, hheap, hmem, -⟩
  · exact hw.congr hsame fun t _ => by rw [harmed]
  · refine hw.put hheap (fun y hy => Or.inr ((hmem y).mp hy).1) (fun a _ => by rw [harmed]) ?_
    intro ht
    exact absurd rfl ((hmem t).mp ht).2

theorem Whole.refresh {s s' : Traced φ ω} (h : Good s) (hw : Whole s) {t : Nat} {now : UInt64}
    {b : Bool} (hrun : s.mgr.refresh t now = .ok (s'.mgr, b))
    (harmed : s'.armed = armedBy s.mgr s.armed (.refresh t now) (.result b))
    (hin : InTime s (.refresh t now)) : Whole s' := by
  by_cases hcb : (s.mgr.timer t).m_cb.isSome
  · obtain ⟨m', hrun', -, hheap, hmem, -⟩ := h.inv.refresh_of_isSome hcb now
    rw [hrun'] at hrun
    cases hrun
    refine hw.put hheap (fun y hy => Or.inr ((hmem y).mp hy)) ?_ fun _ => ?_
    · intro a ha
      rw [harmed]
      exact if_neg ha
    · rw [harmed]
      simpa [armedBy] using hin hcb
  · rw [refresh_of_isNone (by simpa using hcb)] at hrun
    obtain ⟨hm, rfl⟩ := Prod.mk.inj (Except.ok.inj hrun)
    exact hw.congr hm.symm fun t _ => by rw [harmed]; rfl

theorem Whole.reset {s s' : Traced φ ω} (h : Good s) (hw : Whole s) {t : Nat} {ms now : UInt64}
    {from_now b at_front : Bool}
    (hrun : s.mgr.reset t ms from_now now = .ok (s'.mgr, b, at_front))
    (harmed : s'.armed = armedBy s.mgr s.armed (.reset t ms from_now now) (.result b))
    (hin : InTime s (.reset t ms from_now now)) : Whole s' := by
  by_cases hsame : ms = (s.mgr.timer t).m_ms ∧ from_now = false
  · obtain ⟨rfl, rfl⟩ := hsame
    rw [reset_same] at hrun
    obtain ⟨hm, -⟩ := Prod.mk.inj (Except.ok.inj hrun)
    exact hw.congr hm.symm fun t _ => by rw [harmed]; rfl
  by_cases hcb : (s.mgr.timer t).m_cb.isSome
  · obtain ⟨m', at_front', hrun', -, hheap, hmem, -⟩ := h.inv.reset_of_isSome hcb hsame now
    rw [hrun'] at hrun
    cases hrun
    refine hw.put hheap (fun y hy => Or.inr ((hmem y).mp hy)) ?_ fun _ => ?_
    · intro a ha
      rw [harmed]
      cases from_now with
      | true => exact if_neg ha
      | false => rfl
    · have hsum := hin hcb
      rw [harmed]
      cases from_now with
      | true => simpa [armedBy, resetTimer] using hsum
      | false => simpa [armedBy, resetTimer] using hsum
  · rw [reset_of_isNone (by simpa using hcb) hsame] at hrun
    obtain ⟨hm, hret⟩ := Prod.mk.inj (Except.ok.inj hrun)
    obtain ⟨rfl, -⟩ := Prod.mk.inj hret
    refine hw.congr hm.symm fun t _ => ?_
    rw [harmed]
    cases from_now <;> rfl

theorem Whole.listExpiredCb {s s' : Traced φ ω} (h : Good s) (hw : Whole s) {now_ms : UInt64}
    {now_timer : Nat} {expired : List Nat} {cbs : List (Option (Callback φ ω))}
    (hrun : s.mgr.listExpiredCb now_ms now_timer = .ok (s'.mgr, expired, cbs))
    (harmed : s'.armed = armedBy s.mgr s.armed (.listExpiredCb now_ms now_timer)
      (.callbacks expired cbs))
    (hin : InTime s (.listExpiredCb now_ms now_timer)) : Whole s' := by
  by_cases hempty : s.mgr.m_timers = []
  · have hsame : s.mgr.listExpiredCb now_ms now_timer = .ok (s.mgr, [], []) := by
      simp [TimerManager.listExpiredCb, isEmpty, hempty]
    rw [hsame] at hrun
    obtain ⟨hm, -⟩ := Prod.mk.inj (Except.ok.inj hrun)
    exact hw.congr hm.symm fun t ht => by rw [hempty] at ht; cases ht
  obtain ⟨m', expired', hrun', hfires⟩ := listExpiredCb_fires h.inv hempty now_ms now_timer
  rw [hrun'] at hrun
  cases hrun
  have hroll := (notFarBehind_iff s.mgr now_ms).mp (hin.1 hempty)
  intro t ht
  by_cases hexp : t ∈ expired
  · -- it was due, and is armed again
    obtain ⟨hold, hdue⟩ := (hfires.due hroll t).mp hexp
    cases hrec : (s.mgr.timer t).m_recurring with
    | false => exact absurd ht (hfires.ended t hexp hrec).1
    | true =>
      rw [due, harmed, (hfires.again t hexp hrec).2]
      simpa [armedBy, Ret.expired, hexp, hrec] using hin.2 t hold hrec hdue
  · obtain ⟨hheap, hmem⟩ := hfires.others t hexp
    have htimer : s'.mgr.timer t = s.mgr.timer t := by rw [timer, hheap, timer]
    have hsame : s'.armed t = s.armed t := by
      rw [harmed]
      exact if_neg fun hand => hexp hand.1
    rw [due, hsame, htimer]
    exact hw t (hmem.mp ht)

/-- **Step lemma.** -/
theorem Step.whole {s s' : Traced φ ω} {l : Call φ ω × Ret φ ω} (hstep : Step s l s') (h : Good s)
    (hw : Whole s) (hin : InTime s l.1) : Whole s' := by
  obtain ⟨c, r⟩ := l
  obtain ⟨hlegal, hrun, harmed⟩ := hstep
  cases c with
  | addTimer t ms cb recurring now =>
    obtain ⟨hm, -⟩ := Prod.mk.inj (Except.ok.inj hrun)
    exact hw.addTimer h hlegal hm harmed hin
  | addConditionTimer t ms cb weak_cond recurring now =>
    obtain ⟨hm, -⟩ := Prod.mk.inj (Except.ok.inj hrun)
    exact hw.addTimer h hlegal hm harmed hin
  | cancel t =>
    obtain ⟨⟨m', b⟩, hcancel, hret⟩ := bind_ok hrun
    cases hret
    exact hw.cancel h hcancel harmed
  | refresh t now =>
    obtain ⟨⟨m', b⟩, hrefresh, hret⟩ := bind_ok hrun
    cases hret
    exact hw.refresh h hrefresh harmed hin
  | reset t ms from_now now =>
    obtain ⟨⟨m', b, at_front⟩, hreset, hret⟩ := bind_ok hrun
    cases hret
    exact hw.reset h hreset harmed hin
  | listExpiredCb now_ms now_timer =>
    obtain ⟨⟨m', expired, cbs⟩, hlist, hret⟩ := bind_ok hrun
    cases hret
    exact hw.listExpiredCb h hlist harmed hin

/-! ## Runs -/

theorem whole_run {now : UInt64} {calls : List (Call φ ω × Ret φ ω)} {s : Traced φ ω}
    (hrun : Run InTimeStep (start now) calls s) : Good s ∧ Whole s := by
  refine hrun.invariant (I := fun s => Good s ∧ Whole s) ?_ ⟨good_start now, ?_⟩
  · rintro s l s' ⟨h, hw⟩ ⟨hin, hstep⟩
    exact ⟨(hstep.callSpec h).2, hstep.whole h hw hin⟩
  · intro t ht
    cases ht

/-- The timers that an expiry pass returns in a run of such calls. -/
theorem Good.fired_due {s s' : Traced φ ω} (h : Good s) (hw : Whole s) {now_ms : UInt64}
    {now_timer : Nat} {expired : List Nat} {cbs : List (Option (Callback φ ω))}
    (hin : InTime s (.listExpiredCb now_ms now_timer))
    (hstep : Step s (.listExpiredCb now_ms now_timer, .callbacks expired cbs) s') :
    ∀ t ∈ expired, due s t ≤ now_ms.toNat := by
  intro t ht
  obtain ⟨hspec, -⟩ := hstep.callSpec h
  have hmem := (hspec.cbs expired cbs rfl).2 t ht
  have hne : s.mgr.m_timers ≠ [] := List.ne_nil_of_mem hmem
  obtain ⟨m', expired', hrun', hfires⟩ := listExpiredCb_fires h.inv hne now_ms now_timer
  obtain ⟨⟨m₁, expired₁, cbs₁⟩, hlist, hret⟩ := bind_ok hstep.2.1
  rw [hrun'] at hlist
  cases hlist
  cases hret
  have hdue := (hfires.due ((notFarBehind_iff s.mgr now_ms).mp (hin.1 hne)) t).mp ht
  rw [← h.next_of_whole hw hmem]
  exact UInt64.le_iff_toNat_le.mp hdue.2

/-- **No timer fires early.** For every run, with any clock readings, in which no sum of a reading
and a period overflows and no rollover is reported: each callback that an expiry pass returns is
that of a timer armed at least its period before the reading, as natural numbers. -/
theorem fires_in_time {now : UInt64} {calls : List (Call φ ω × Ret φ ω)} {s : Traced φ ω}
    (hrun : Run InTimeStep (start now) calls s) {now_ms : UInt64} {now_timer : Nat}
    {expired : List Nat} {cbs : List (Option (Callback φ ω))} {s' : Traced φ ω}
    (hstep : InTimeStep s (.listExpiredCb now_ms now_timer, .callbacks expired cbs) s') :
    cbs = expired.map (fun t => (s.mgr.timer t).m_cb) ∧
      ∀ t ∈ expired, (s.armed t).toNat + (s.mgr.timer t).m_ms.toNat ≤ now_ms.toNat := by
  obtain ⟨h, hw⟩ := whole_run hrun
  exact ⟨((hstep.2.callSpec h).1.cbs expired cbs rfl).1, h.fired_due hw hstep.1 hstep.2⟩

/-- A timer whose sum overflows is fired by an expiry pass that reads the time it was armed at. -/
theorem early_of_overflow {s : Traced φ ω} (h : Good s) {t : Nat} (ht : t ∈ s.mgr.m_timers)
    (hover : UInt64.size ≤ due s t) (now_timer : Nat) :
    ∃ expired cbs s', Step s (.listExpiredCb (s.armed t) now_timer, .callbacks expired cbs) s' ∧
      t ∈ expired ∧ (s.armed t).toNat < due s t := by
  have hne : s.mgr.m_timers ≠ [] := List.ne_nil_of_mem ht
  obtain ⟨m', expired, hrun, hfires⟩ := listExpiredCb_fires h.inv hne (s.armed t) now_timer
  have hlt := (s.mgr.timer t).m_ms.toNat_lt
  have hlt' := (s.armed t).toNat_lt
  have hsize : UInt64.size = 2 ^ 64 := rfl
  unfold due at hover ⊢
  have hnext : (s.mgr.timer t).m_next ≤ s.armed t := by
    rw [h.next_eq t ht, UInt64.le_iff_toNat_le, UInt64.toNat_add]
    omega
  refine ⟨expired, expired.map fun t => (s.mgr.timer t).m_cb, ⟨m', _⟩, ⟨trivial, ?_, rfl⟩, ?_,
    by omega⟩
  · simp only [call, hrun, bind, Except.bind]
  · cases hroll : (s.mgr.detectClockRollover (s.armed t)).2 with
    | true => exact (hfires.all hroll t).mpr ht
    | false => exact (hfires.due hroll t).mpr ⟨ht, hnext⟩

/-- A period of `2 ^ 64 - 1` ms is over at once, and with clock readings below an hour a clock that
steps back by one millisecond ends every period. -/
theorem not_fires_in_time :
    (∃ s s' : Traced Nat Nat, Run Step (start 1000)
        [(.addTimer 7 18446744073709551615 0 false 1000, .timer 7)] s ∧
      Step s (.listExpiredCb 1000 9, .callbacks [7] [some (.plain 0)]) s' ∧
      ¬(s.armed 7).toNat + (s.mgr.timer 7).m_ms.toNat ≤ 1000) ∧
    ∃ s s' : Traced Nat Nat, Run Step (start 1000)
        [(.addTimer 7 5000 0 false 1000, .timer 7)] s ∧
      Step s (.listExpiredCb 999 9, .callbacks [7] [some (.plain 0)]) s' ∧
      ¬(s.armed 7).toNat + (s.mgr.timer 7).m_ms.toNat ≤ 999 := by
  refine ⟨⟨⟨_, _⟩, ⟨_, _⟩, .cons ⟨rfl, rfl, rfl⟩ (.nil _), ⟨trivial, rfl, rfl⟩, ?_⟩,
    ⟨_, _⟩, ⟨_, _⟩, .cons ⟨rfl, rfl, rfl⟩ (.nil _), ⟨trivial, rfl, rfl⟩, ?_⟩
  · decide
  · decide

/-- A timer added at 1000 for 10 ms and fired at 1010. -/
theorem fires_in_time_once : ∃ s s' : Traced Nat Nat, Run InTimeStep (start 1000)
      [(.addTimer 7 10 0 false 1000, .timer 7)] s ∧
    InTimeStep s (.listExpiredCb 1010 9, .callbacks [7] [some (.plain 0)]) s' ∧
    ∀ t ∈ [7], (s.armed t).toNat + (s.mgr.timer t).m_ms.toNat ≤ 1010 := by
  obtain ⟨s, s', hrun, hstep⟩ : ∃ s s' : Traced Nat Nat, Run InTimeStep (start 1000)
      [(.addTimer 7 10 0 false 1000, .timer 7)] s ∧
      InTimeStep s (.listExpiredCb 1010 9, .callbacks [7] [some (.plain 0)]) s' := by
    have hsum : (1000 : UInt64).toNat + (10 : UInt64).toNat < UInt64.size := by decide
    refine ⟨⟨_, _⟩, ⟨_, _⟩, .cons ⟨hsum, rfl, rfl, rfl⟩ (.nil _), ⟨⟨?_, ?_⟩, trivial, rfl, rfl⟩⟩
    · exact fun _ => Or.inl (by decide)
    · intro t ht hrec
      obtain rfl : t = 7 := List.mem_singleton.mp ht
      cases hrec
  exact ⟨s, s', hrun, hstep, (fires_in_time hrun hstep).2⟩

end Captain.TimerManager
