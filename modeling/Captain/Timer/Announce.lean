import Captain.Timer.Threads

/-!
# Earlier deadlines are announced

`getNextTimer` tells a poller how long it may sleep. A deadline earlier than those it saw must
come with a call of `onTimerInsertedAtFront`.

* `Step.later`: while `m_tickled` is false, a step either announces, or leaves no deadline that is
  earlier than all deadlines before it.
* `announced_of_earlier`: so an earlier deadline than at a poll has been announced since, or is
  about to be, if every expiry pass that detects a rollover finds the recurring timers due
  within their period.
-/

namespace Captain.TimerManager

open OrderedSet Transition

variable {φ ω ι : Type}

theorem toNat_add_of_lt {a b : UInt64} (h : a.toNat + b.toNat < UInt64.size) :
    (a + b).toNat = a.toNat + b.toNat := by
  rw [UInt64.toNat_add]
  exact Nat.mod_eq_of_lt h

namespace Threads

/-- The clock does not go back, and no clock reading plus period overflows. -/
def Regular (s : Threads φ ω ι) : Label φ ω ι → Prop
  | .tick now => s.clock ≤ now
  | .construct _ _ ms _ _ => s.clock.toNat + ms.toNat < UInt64.size
  | .refresh _ t => s.clock.toNat + (s.mgr.timer t).m_ms.toNat < UInt64.size
  | .reset _ _ ms _ => s.clock.toNat + ms.toNat < UInt64.size
  | .pass i _ => ∀ now_ms ∈ (s.pc i).reading,
    ∀ t ∈ s.mgr.m_timers, now_ms.toNat + (s.mgr.timer t).m_ms.toNat < UInt64.size
  | _ => True

/-- A pass with a reading more than an hour behind `m_previouseTime` finds every recurring timer
of the set due within its period from that reading. -/
def Fresh (s : Threads φ ω ι) : Label φ ω ι → Prop
  | .pass i _ => ∀ now_ms ∈ (s.pc i).reading,
    now_ms.toNat + 60 * 60 * 1000 < s.mgr.m_previouseTime.toNat →
    ∀ t ∈ s.mgr.m_timers, (s.mgr.timer t).m_recurring = true →
      (s.mgr.timer t).m_next.toNat ≤ now_ms.toNat + (s.mgr.timer t).m_ms.toNat
  | _ => True

instance (s : Threads φ ω ι) : (l : Label φ ω ι) → Decidable (Regular s l)
  | .tick now => inferInstanceAs (Decidable (s.clock ≤ now))
  | .construct .. => Nat.decLt _ _
  | .refresh .. => Nat.decLt _ _
  | .reset .. => Nat.decLt _ _
  | .pass i _ => Option.decidableForallMem (s.pc i).reading
  | .insert _ | .announce _ | .cancel .. | .getNextTimer _ | .readClock _ | .test _ =>
    inferInstanceAs (Decidable True)

/-- A clock reading of an hour or more that is not ahead of the clock. -/
def Read (clock now : UInt64) : Prop := 60 * 60 * 1000 ≤ now.toNat ∧ now ≤ clock

/-- The readings that a thread carries. -/
def PcRead (clock : UInt64) : Pc φ ω → Prop
  | .idle => True
  | .constructed _ ms _ _ now => Read clock now ∧ now.toNat + ms.toNat < UInt64.size
  | .announcing => True
  | .listing now_ms => Read clock now_ms
  | .expiring now_ms => Read clock now_ms

/-- The timer is armed at a time that is not ahead of the clock. -/
def ArmedBy (clock : UInt64) (v : Timer φ ω) : Prop :=
  ∃ armed ≤ clock.toNat, v.m_next.toNat = armed + v.m_ms.toNat

structure Sound (s : Threads φ ω ι) : Prop where
  inv : Inv s.mgr
  clock : 60 * 60 * 1000 ≤ s.clock.toNat
  previouse : 60 * 60 * 1000 ≤ s.mgr.m_previouseTime.toNat
  armed : ∀ t ∈ s.mgr.m_timers, ArmedBy s.clock (s.mgr.timer t)
  pcs : ∀ i, PcRead s.clock (s.pc i)

theorem sound_init {now : UInt64} (hnow : 60 * 60 * 1000 ≤ now.toNat) :
    Sound (init now : Threads φ ω ι) where
  inv := inv_new now
  clock := hnow
  previouse := hnow
  armed t ht := by cases ht
  pcs _ := trivial

theorem armedBy_add {clock now ms : UInt64} (hnow : now ≤ clock)
    (hadd : now.toNat + ms.toNat < UInt64.size) {v : Timer φ ω} (hms : v.m_ms = ms)
    (hnext : v.m_next = now + ms) : ArmedBy clock v := by
  refine ⟨now.toNat, UInt64.le_iff_toNat_le.mp hnow, ?_⟩
  rw [hnext, hms, toNat_add_of_lt hadd]

theorem Sound.armed_put {s : Threads φ ω ι} (h : Sound s) {m : TimerManager φ ω} {t : Nat}
    {v : Timer φ ω} (hheap : m.heap = (s.mgr.put t v).heap)
    (hmem : ∀ y, y ∈ m.m_timers → y = t ∨ y ∈ s.mgr.m_timers)
    (hv : t ∈ m.m_timers → ArmedBy s.clock v) :
    ∀ y ∈ m.m_timers, ArmedBy s.clock (m.timer y) := by
  intro y hy
  rw [timer_congr hheap]
  by_cases hyt : y = t
  · subst hyt
    rw [timer_put_self]
    exact hv hy
  · rw [timer_put_ne _ _ hyt]
    exact h.armed y ((hmem y hy).resolve_left hyt)

theorem rollover_iff {m : TimerManager φ ω} (hprev : 60 * 60 * 1000 ≤ m.m_previouseTime.toNat)
    (now_ms : UInt64) : (m.detectClockRollover now_ms).2 = true ↔
      now_ms.toNat + 60 * 60 * 1000 < m.m_previouseTime.toNat := by
  have hsub : (m.m_previouseTime - 60 * 60 * 1000).toNat =
      m.m_previouseTime.toNat - 60 * 60 * 1000 :=
    UInt64.toNat_sub_of_le _ _ (UInt64.le_iff_toNat_le.mpr hprev)
  simp only [detectClockRollover, Bool.and_eq_true, decide_eq_true_eq, UInt64.lt_iff_toNat_lt, hsub]
  omega

theorem later_pass {s : Threads φ ω ι} (h : Sound s) {i : ι} {now_timer : Nat}
    (hreg : Regular s (.pass i now_timer)) (hfresh : Fresh s (.pass i now_timer))
    {now_ms : UInt64} (hpc : s.pc i = .expiring now_ms) {m : TimerManager φ ω}
    {expired : List Nat} (hexp : Expired s.mgr m now_ms expired) : Later m s.mgr := by
  have hread : now_ms ∈ (s.pc i).reading := by rw [hpc]; rfl
  intro t ht
  obtain ⟨hold, hrec⟩ := (hexp.mem_iff t).mp ht
  refine ⟨t, hold, ?_⟩
  rw [timer_expired hexp]
  split
  · rename_i hin
    have hadd : (now_ms + (s.mgr.timer t).m_ms).toNat =
        now_ms.toNat + (s.mgr.timer t).m_ms.toNat := toNat_add_of_lt (hreg now_ms hread t hold)
    rw [firedTimer, if_pos (hrec hin), UInt64.le_iff_toNat_le, hadd]
    rcases (hexp.due t hold).mp hin with hroll | hdue
    · exact hfresh now_ms hread ((rollover_iff h.previouse now_ms).mp hroll) t hold (hrec hin)
    · have := UInt64.le_iff_toNat_le.mp hdue
      omega
  · exact UInt64.le_refl _

variable [DecidableEq ι]

/-- A section that leaves the clock as it is, and its thread at a sound point. -/
theorem Sound.goto {s : Threads φ ω ι} (h : Sound s) {m : TimerManager φ ω} {i : ι} {p : Pc φ ω}
    (hinv : Inv m) (hprev : 60 * 60 * 1000 ≤ m.m_previouseTime.toNat)
    (harmed : ∀ t ∈ m.m_timers, ArmedBy s.clock (m.timer t)) (hp : PcRead s.clock p) :
    Sound (s.goto m i p) where
  inv := hinv
  clock := h.clock
  previouse := hprev
  armed := harmed
  pcs j := by
    rw [goto_pc]
    split
    · exact hp
    · exact h.pcs j

theorem pcRead_atFront (clock : UInt64) (b : Bool) : PcRead clock (atFront b : Pc φ ω) := by
  cases b <;> trivial

/-- What `reset` writes is armed when the timer was, or now. -/
theorem armedBy_resetTimer {clock ms : UInt64} {v : Timer φ ω} (hv : ArmedBy clock v)
    (hadd : clock.toNat + ms.toNat < UInt64.size) (from_now : Bool) :
    ArmedBy clock (resetTimer v ms from_now clock) := by
  cases from_now with
  | true => exact armedBy_add (UInt64.le_refl _) hadd rfl rfl
  | false =>
    obtain ⟨armed, hle, hnext⟩ := hv
    have hstart : (v.m_next - v.m_ms).toNat = armed := by
      rw [UInt64.toNat_sub_of_le _ _ (UInt64.le_iff_toNat_le.mpr (by omega))]
      omega
    refine ⟨armed, hle, ?_⟩
    simp only [resetTimer, Bool.false_eq_true, if_false]
    rw [toNat_add_of_lt (by omega), hstart]

theorem Step.sound {s s' : Threads φ ω ι} {l : Label φ ω ι} (hstep : Step s l s')
    (h : Sound s) (hreg : Regular s l) : Sound s' := by
  cases hstep with
  | tick now =>
    have hle : s.clock.toNat ≤ now.toNat := UInt64.le_iff_toNat_le.mp hreg
    refine ⟨h.inv, h.clock.trans hle, h.previouse, fun t ht => ?_, fun i => ?_⟩
    · obtain ⟨armed, harmed, hnext⟩ := h.armed t ht
      exact ⟨armed, harmed.trans hle, hnext⟩
    · have hread : ∀ {now₀}, Read s.clock now₀ → Read now now₀ :=
        fun hr => ⟨hr.1, UInt64.le_trans hr.2 hreg⟩
      have hpc := h.pcs i
      change PcRead now (s.pc i)
      cases hp : s.pc i with
      | idle | announcing => trivial
      | constructed =>
        rw [hp] at hpc
        exact ⟨hread hpc.1, hpc.2⟩
      | listing | expiring =>
        rw [hp] at hpc
        exact hread hpc
  | construct hpc t ms cb recurring =>
    exact h.goto h.inv h.previouse h.armed ⟨⟨h.clock, UInt64.le_refl _⟩, hreg⟩
  | @insert i t ms cb recurring now hpc ht m at_front hrun =>
    obtain ⟨m', at_front', hrun', hinv, hheap, hmem, hprev, -⟩ :=
      h.inv.addTimer_spec ht ms cb recurring now
    rw [hrun'] at hrun
    cases hrun
    have hread := h.pcs i
    rw [hpc] at hread
    exact h.goto hinv (hprev ▸ h.previouse) (h.armed_put hheap (fun y hy => (hmem y).mp hy)
      fun _ => armedBy_add hread.1.2 hread.2 rfl rfl) (pcRead_atFront _ _)
  | announce hpc => exact h.goto h.inv h.previouse h.armed trivial
  | cancel hpc ht hrun =>
    rcases h.inv.of_cancel hrun with rfl | ⟨hinv, hheap, hmem, -, hprev⟩
    · exact h.goto h.inv h.previouse h.armed trivial
    · exact h.goto hinv (hprev ▸ h.previouse) (h.armed_put hheap
        (fun y hy => Or.inr ((hmem y).mp hy).1) fun ht => absurd rfl ((hmem _).mp ht).2) trivial
  | refresh hpc ht hrun =>
    rcases h.inv.of_refresh hrun with rfl | ⟨hin, hinv, hheap, hmem, -, hprev⟩
    · exact h.goto h.inv h.previouse h.armed trivial
    · exact h.goto hinv (hprev ▸ h.previouse) (h.armed_put hheap
        (fun y hy => Or.inr ((hmem y).mp hy))
        fun _ => armedBy_add (UInt64.le_refl _) hreg rfl rfl) trivial
  | reset hpc ht hrun =>
    rcases h.inv.of_reset hrun with ⟨rfl, -⟩ | ⟨hin, hinv, hheap, hmem, hprev, -⟩
    · exact h.goto h.inv h.previouse h.armed (pcRead_atFront _ _)
    · exact h.goto hinv (hprev ▸ h.previouse) (h.armed_put hheap
        (fun y hy => Or.inr ((hmem y).mp hy))
        fun _ => armedBy_resetTimer (h.armed _ hin) hreg _) (pcRead_atFront _ _)
  | getNextTimer hpc =>
    obtain ⟨hinv, heq⟩ := inv_getNextTimer h.inv s.clock
    rw [heq] at hinv ⊢
    exact h.goto hinv h.previouse h.armed trivial
  | readClock hpc =>
    exact h.goto h.inv h.previouse h.armed ⟨h.clock, UInt64.le_refl _⟩
  | @test i now_ms hpc =>
    have hread := h.pcs i
    rw [hpc] at hread
    apply h.goto h.inv h.previouse h.armed
    split
    · trivial
    · exact hread
  | @pass i now_ms hpc now_timer m expired cbs hrun =>
    have hexp := h.inv.of_expirePass hrun
    have hread := h.pcs i
    rw [hpc] at hread
    refine h.goto hexp.inv (hexp.previouse ▸ hread.1) (fun t ht => ?_) trivial
    obtain ⟨hold, hrec⟩ := (hexp.mem_iff t).mp ht
    rw [timer_expired hexp]
    split
    · rename_i hin
      rw [firedTimer, if_pos (hrec hin)]
      exact armedBy_add hread.2 (hreg now_ms (by rw [hpc]; rfl) t hold) rfl rfl
    · exact h.armed t hold

/-! ## Deadlines move later, or are announced -/

/-- While nothing is announced since the last poll, a step either announces, or brings no
deadline that is earlier than all those before it. -/
theorem Step.later {s s' : Threads φ ω ι} {l : Label φ ω ι} (hstep : Step s l s') (h : Sound s)
    (hreg : Regular s l) (hfresh : Fresh s l) (htick : s.mgr.m_tickled = false) :
    (s'.mgr.m_tickled = false ∧ Later s'.mgr s.mgr) ∨
      s'.mgr.m_tickled = true ∧ ∃ i, s'.pc i = .announcing := by
  cases hstep with
  | tick | construct | announce | readClock | test => exact Or.inl ⟨htick, Later.refl s.mgr⟩
  | @insert i t ms cb recurring now hpc ht m at_front hrun =>
    obtain ⟨-, htick', hlater⟩ := later_addTimer h.inv ht hrun
    cases at_front with
    | true => exact Or.inr ⟨by simp [goto, htick'], i, by simp [goto_pc, atFront]⟩
    | false => exact Or.inl ⟨by simp [goto, htick', htick], hlater htick rfl⟩
  | cancel hpc ht hrun =>
    obtain ⟨-, htick', hlater⟩ := later_cancel h.inv hrun
    exact Or.inl ⟨htick'.trans htick, hlater⟩
  | @refresh i hpc t ht m b hrun =>
    rcases h.inv.of_refresh hrun with rfl | ⟨hin, -, hheap, hmem, htick', -⟩
    · exact Or.inl ⟨htick, Later.refl _⟩
    · refine Or.inl ⟨htick'.trans htick, Later.of_put hheap
        (fun y hy => Or.inr ((hmem y).mp hy)) fun _ => ⟨t, hin, ?_⟩⟩
      -- the timer was armed at an earlier time with the same period
      obtain ⟨armed, hle, hnext⟩ := h.armed t hin
      rw [UInt64.le_iff_toNat_le, hnext]
      refine Nat.le_trans ?_ (Nat.le_of_eq (toNat_add_of_lt hreg).symm)
      omega
  | @reset i hpc t ht ms from_now m b at_front hrun =>
    obtain ⟨-, htick', hlater⟩ := later_reset h.inv hrun
    cases at_front with
    | true => exact Or.inr ⟨by simp [goto, htick'], i, by simp [goto_pc, atFront]⟩
    | false => exact Or.inl ⟨by simp [goto, htick', htick], hlater htick rfl⟩
  | getNextTimer hpc =>
    have heq := (inv_getNextTimer h.inv s.clock).2
    refine Or.inl ⟨congrArg m_tickled heq, ?_⟩
    change Later (s.mgr.getNextTimer s.clock).1 s.mgr
    rw [heq]
    exact Later.refl s.mgr
  | pass hpc hrun =>
    have hexp := h.inv.of_expirePass hrun
    exact Or.inl ⟨hexp.tickled.trans htick, later_pass h hreg hfresh hpc hexp⟩

/-! ## Runs -/

/-- In the course of `ls`, a thread set `m_tickled`, and it has since called
`onTimerInsertedAtFront` or is about to. -/
def AnnouncedIn (s₀ : Threads φ ω ι) (ls : List (Label φ ω ι)) (s : Threads φ ω ι) : Prop :=
  ∃ pre l post u v i, ls = pre ++ l :: post ∧ Run Step s₀ pre u ∧ Step u l v ∧ Run Step v post s ∧
    u.mgr.m_tickled = false ∧ v.mgr.m_tickled = true ∧ v.pc i = .announcing ∧
    (.announce i ∈ post ∨ s.pc i = .announcing)

/-- A thread that is about to announce does nothing else before. -/
theorem announces {s s' : Threads φ ω ι} {ls : List (Label φ ω ι)} (h : Run Step s ls s') {i : ι}
    (hpc : s.pc i = .announcing) : .announce i ∈ ls ∨ s'.pc i = .announcing := by
  induction h with
  | nil => exact Or.inr hpc
  | @cons s t _ l ls hst _ ih =>
    by_cases ht : t.pc i = .announcing
    · exact (ih ht).imp_left (List.mem_cons_of_mem _)
    · refine Or.inl (List.mem_cons.mpr (Or.inl ?_))
      cases hst with
      | tick => exact absurd hpc ht
      | @announce j hpcj =>
        rw [goto_pc] at ht
        split at ht
        · rename_i hij
          rw [hij]
        · exact absurd hpc ht
      | construct hpcj | insert hpcj | cancel hpcj | refresh hpcj | reset hpcj
      | getNextTimer hpcj | readClock hpcj | test hpcj | pass hpcj =>
        rw [goto_pc] at ht
        split at ht
        · rename_i hij
          rw [hij, hpcj] at hpc
          cases hpc
        · exact absurd hpc ht

theorem later_or_announced {s s' : Threads φ ω ι} {ls : List (Label φ ω ι)}
    (h : Run (Guard (fun u l => Regular u l ∧ Fresh u l) Step) s ls s') (hs : Sound s)
    (htick : s.mgr.m_tickled = false) :
    (s'.mgr.m_tickled = false ∧ Later s'.mgr s.mgr) ∨ AnnouncedIn s ls s' := by
  induction h with
  | nil => exact Or.inl ⟨htick, Later.refl _⟩
  | @cons s t _ l ls hst hrun ih =>
    obtain ⟨⟨hreg, hfresh⟩, hstep⟩ := hst
    rcases hstep.later hs hreg hfresh htick with ⟨htick', hlater⟩ | ⟨htick', i, hpc⟩
    · rcases ih (hstep.sound hs hreg) htick' with ⟨htick'', hlater'⟩ |
        ⟨pre, l', post, u, v, j, rfl, hpre, hrest⟩
      · exact Or.inl ⟨htick'', hlater'.trans hlater⟩
      · exact Or.inr ⟨l :: pre, l', post, u, v, j, rfl, .cons hstep hpre, hrest⟩
    · exact Or.inr ⟨[], l, ls, s, t, i, rfl, .nil s, hstep, hrun.of_guard, htick, htick', hpc,
        announces hrun.of_guard hpc⟩

theorem sound_run {s s' : Threads φ ω ι} {ls : List (Label φ ω ι)}
    (h : Run (Guard (fun u l => Regular u l ∧ Fresh u l) Step) s ls s') (hs : Sound s) : Sound s' :=
  h.invariant (I := Sound) (fun _ _ _ hu hst => hst.2.sound hu hst.1.1) hs

/-- In a run whose clock does not go back, and whose passes are fresh, a deadline that is earlier
than all those at an earlier poll has been announced since the poll, or is about to be. -/
theorem announced_of_earlier (now : UInt64) (hnow : 60 * 60 * 1000 ≤ now.toNat)
    (pre post : List (Label φ ω ι)) (i : ι) (u v s : Threads φ ω ι)
    (hpre : Run (Guard (fun u l => Regular u l ∧ Fresh u l) Step) (init now) pre u)
    (hpoll : Step u (.getNextTimer i) v)
    (hpost : Run (Guard (fun u l => Regular u l ∧ Fresh u l) Step) v post s)
    (hearlier : Earlier s.mgr u.mgr) : AnnouncedIn v post s := by
  have hu := sound_run hpre (sound_init hnow)
  have hv := hpoll.sound hu trivial
  cases hpoll with
  | getNextTimer hpc =>
    have heq := (inv_getNextTimer hu.inv u.clock).2
    rw [heq] at hpost hv ⊢
    apply (later_or_announced hpost hv rfl).resolve_left
    intro hlater
    exact later_iff.mp hlater.2 hearlier

/-- A poll of the empty set, then a new timer. -/
theorem announced_of_earlier_insert : ∃ v s : Threads Nat Nat Bool, s.mgr.m_timers = [7] ∧
    AnnouncedIn v [.construct true 7 10 none false, .insert true] s := by
  refine ⟨_, _, ?_, announced_of_earlier 4000000 (by decide) [] _ false (init 4000000) _ _ (.nil _)
    (.getNextTimer rfl) (.cons ⟨⟨by decide, trivial⟩, .construct rfl _ _ _ _⟩ <|
      .cons ⟨⟨trivial, trivial⟩, .insert rfl rfl rfl⟩ <| .nil _) ?_⟩
  · rfl
  · exact ⟨7, by decide, by simp [init, new]⟩

/-- A recurring timer is fired late by one thread. The other thread's call, which read the clock
long before, then takes the set for rolled over and re-arms the timer at its old reading. -/
def staleBefore : List (Label Nat Nat Bool) :=
  [.construct true 7 1000 (some (.plain 0)) true, .insert true, .announce true,
    .readClock false, .test false, .tick 11200001, .readClock true, .test true, .pass true 9]

theorem run_stale : ∃ u v s : Threads Nat Nat Bool,
    Run (Guard Regular Step) (init 4000000) staleBefore u ∧ Step u (.getNextTimer true) v ∧
      Run (Guard Regular Step) v [.pass false 9] s ∧ Earlier s.mgr u.mgr ∧
      ∀ i, s.pc i ≠ .announcing := by
  have hsound : ∀ (s : Threads Nat Nat Bool) (l : Label Nat Nat Bool) (t : Threads Nat Nat Bool),
      guardNext Regular next s l = some t → Guard Regular Step s l t := guardNext_sound next_sound
  refine ⟨_, _, _, .of_exec_isSome hsound ?_, .getNextTimer ?_, .of_exec_isSome hsound ?_,
    ⟨7, ?_, ?_⟩, ?_⟩
  all_goals decide +kernel

/-- Without fresh passes an earlier deadline can come about unannounced. -/
theorem not_announced_of_earlier : ¬∀ (now : UInt64), 60 * 60 * 1000 ≤ now.toNat →
    ∀ (pre post : List (Label Nat Nat Bool)) (i : Bool) (u v s : Threads Nat Nat Bool),
      Run (Guard Regular Step) (init now) pre u → Step u (.getNextTimer i) v →
      Run (Guard Regular Step) v post s → (∀ j, .getNextTimer j ∉ post) → Earlier s.mgr u.mgr →
      (∃ j, .announce j ∈ post) ∨ ∃ j, s.pc j = .announcing := by
  intro hall
  obtain ⟨u, v, s, hpre, hpoll, hpost, hearlier, hpc⟩ := run_stale
  rcases hall 4000000 (by decide) _ _ _ u v s hpre hpoll hpost (by simp) hearlier with
    ⟨j, hj⟩ | ⟨j, hj⟩
  · simp at hj
  · exact hpc j hj

end Threads

end Captain.TimerManager
