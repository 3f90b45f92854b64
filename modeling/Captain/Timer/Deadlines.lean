import Captain.Timer.Expire

/-!
# The earliest deadline

`Earlier` and `Later` compare two sets by their earliest deadlines. An operation that does not
announce a timer at the front leaves no deadline that is earlier than all those before it, as long
as `m_tickled` is false; `refresh` and the expiry pass do so under conditions on the clock.
-/

namespace Captain.TimerManager

open OrderedSet

variable {φ ω : Type}

/-- The earliest deadline in the one set is earlier than that in the other, where an empty set
has it at infinity. -/
def Earlier (m m₀ : TimerManager φ ω) : Prop :=
  ∃ t ∈ m.m_timers, ∀ t₀ ∈ m₀.m_timers, (m.timer t).m_next < (m₀.timer t₀).m_next

/-- No deadline is earlier than all of the other set. -/
def Later (m m₀ : TimerManager φ ω) : Prop :=
  ∀ t ∈ m.m_timers, ∃ t₀ ∈ m₀.m_timers, (m₀.timer t₀).m_next ≤ (m.timer t).m_next

theorem later_iff {m m₀ : TimerManager φ ω} : Later m m₀ ↔ ¬Earlier m m₀ := by
  simp only [Later, Earlier, not_exists, not_and, not_forall, UInt64.not_lt, exists_prop]

theorem Later.refl (m : TimerManager φ ω) : Later m m := fun t ht => ⟨t, ht, UInt64.le_refl _⟩

theorem Later.trans {m₁ m₂ m₃ : TimerManager φ ω} (h : Later m₁ m₂) (h' : Later m₂ m₃) :
    Later m₁ m₃ := by
  intro t ht
  obtain ⟨t', ht', hle⟩ := h t ht
  obtain ⟨t'', ht'', hle'⟩ := h' t' ht'
  exact ⟨t'', ht'', UInt64.le_trans hle' hle⟩

/-- Only the timer `t` is written. -/
theorem Later.of_put {m m' : TimerManager φ ω} {t : Nat} {v : Timer φ ω}
    (hheap : m'.heap = (m.put t v).heap)
    (hmem : ∀ y, y ∈ m'.m_timers → y = t ∨ y ∈ m.m_timers)
    (ht : t ∈ m'.m_timers → ∃ y ∈ m.m_timers, (m.timer y).m_next ≤ v.m_next) : Later m' m := by
  intro y hy
  by_cases hyt : y = t
  · subst hyt
    rw [timer_congr hheap, timer_put_self]
    exact ht hy
  · rw [timer_congr hheap, timer_put_ne _ _ hyt]
    exact ⟨y, (hmem y hy).resolve_left hyt, UInt64.le_refl _⟩

theorem le_of_not_less {m : TimerManager φ ω} {a b : Nat} (h : ¬m.less a b = true) :
    (m.timer b).m_next ≤ (m.timer a).m_next := by
  rw [less_iff] at h
  rw [UInt64.le_iff_toNat_le]
  omega

/-- The deadline that `getNextTimer` counts down to. -/
def deadline (m : TimerManager φ ω) : Option UInt64 :=
  m.m_timers.head?.map fun t => (m.timer t).m_next

/-- A timer of the set is due before `d`; no deadline is at infinity. -/
def DueBefore (m : TimerManager φ ω) (d : Option UInt64) : Prop :=
  ∃ t ∈ m.m_timers, ∀ d₀ ∈ d, (m.timer t).m_next < d₀

theorem not_dueBefore_iff {m : TimerManager φ ω} {d : Option UInt64} :
    ¬m.DueBefore d ↔ ∀ t ∈ m.m_timers, ∃ d₀ ∈ d, d₀ ≤ (m.timer t).m_next := by
  simp only [DueBefore, not_exists, not_and, not_forall, UInt64.not_lt, exists_prop]

theorem Later.not_dueBefore {m m' : TimerManager φ ω} (h : Later m' m) {d : Option UInt64}
    (hd : ¬m.DueBefore d) : ¬m'.DueBefore d := by
  rw [not_dueBefore_iff] at hd ⊢
  intro t ht
  obtain ⟨t₀, ht₀, hle⟩ := h t ht
  obtain ⟨d₀, hd₀, hle₀⟩ := hd t₀ ht₀
  exact ⟨d₀, hd₀, UInt64.le_trans hle₀ hle⟩

/-- The set is ordered: no timer is due before the first. -/
theorem not_dueBefore_deadline {m : TimerManager φ ω} (h : Inv m) : ¬m.DueBefore m.deadline := by
  rw [not_dueBefore_iff]
  intro t ht
  have hs := h.sorted
  unfold deadline
  cases hl : m.m_timers with
  | nil =>
    rw [hl] at ht
    cases ht
  | cons first rest =>
    refine ⟨(m.timer first).m_next, rfl, ?_⟩
    rw [hl] at ht hs
    rcases List.mem_cons.mp ht with rfl | hmem
    · exact UInt64.le_refl _
    · have hlt := (List.pairwise_cons.mp hs).1 t hmem
      rw [less_iff] at hlt
      rw [UInt64.le_iff_toNat_le]
      omega

theorem deadline_eq_none {m : TimerManager φ ω} : m.deadline = none ↔ m.m_timers = [] := by
  rw [deadline, Option.map_eq_none_iff, List.head?_eq_none_iff]

theorem mem_of_deadline {m : TimerManager φ ω} {d : UInt64} (hd : m.deadline = some d) :
    ∃ t ∈ m.m_timers, (m.timer t).m_next = d := by
  obtain ⟨t, ht, rfl⟩ := Option.map_eq_some_iff.mp hd
  exact ⟨t, List.mem_of_head? ht, rfl⟩

/-- What `getNextTimer` returns. -/
theorem getNextTimer_of_none {m : TimerManager φ ω} (hd : m.deadline = none) (now_ms : UInt64) :
    (m.getNextTimer now_ms).2 = -1 := by
  have hempty : m.m_timers.head? = none := Option.map_eq_none_iff.mp hd
  simp only [getNextTimer, hempty]

theorem getNextTimer_of_some {m : TimerManager φ ω} {d : UInt64} (hd : m.deadline = some d)
    (now_ms : UInt64) : (m.getNextTimer now_ms).2 = if now_ms ≥ d then 0 else d - now_ms := by
  obtain ⟨t, ht, rfl⟩ := Option.map_eq_some_iff.mp hd
  simp only [getNextTimer, ht]
  split <;> rename_i hdue
  · rw [if_pos]
    exact hdue
  · rw [if_neg]
    · rfl
    · exact hdue

/-! ## The operations -/

theorem later_addTimer {m m' : TimerManager φ ω} (h : Inv m) {t : Nat} (ht : m.heap t = none)
    {ms now : UInt64} {cb : Option (Callback φ ω)} {recurring at_front : Bool}
    (hrun : m.addTimer t ms cb recurring now = (m', at_front)) :
    Inv m' ∧ m'.m_tickled = (m.m_tickled || at_front) ∧
      (m.m_tickled = false → at_front = false → Later m' m) := by
  obtain ⟨m₁, at_front₁, hrun₁, hinv, hheap, hmem, -, htick, hfront⟩ :=
    h.addTimer_spec ht ms cb recurring now
  rw [hrun₁] at hrun
  cases hrun
  refine ⟨hinv, htick, ?_⟩
  rintro hm rfl
  refine Later.of_put hheap (fun y hy => (hmem y).mp hy) fun _ => ?_
  -- the new timer is behind one that was there
  simp only [Bool.false_eq_true, hm, true_and, false_iff, not_forall] at hfront
  obtain ⟨y, hy, hless⟩ := hfront
  refine ⟨y, hy, ?_⟩
  have hyt : y ≠ t := by
    rintro rfl
    have := h.isSome_of_mem hy
    simp [ht] at this
  have hle := le_of_not_less hless
  rwa [timer_congr hheap, timer_congr hheap, timer_put_self, timer_put_ne _ _ hyt] at hle

theorem later_cancel {m m' : TimerManager φ ω} (h : Inv m) {t : Nat} {b : Bool}
    (hrun : m.cancel t = .ok (m', b)) : Inv m' ∧ m'.m_tickled = m.m_tickled ∧ Later m' m := by
  rcases h.of_cancel hrun with rfl | ⟨hinv, hheap, hmem, htick, -⟩
  · exact ⟨h, rfl, Later.refl _⟩
  · refine ⟨hinv, htick, Later.of_put hheap (fun y hy => Or.inr ((hmem y).mp hy).1) ?_⟩
    exact fun ht => absurd rfl ((hmem _).mp ht).2

theorem later_reset {m m' : TimerManager φ ω} (h : Inv m) {t : Nat} {ms now : UInt64}
    {from_now b at_front : Bool} (hrun : m.reset t ms from_now now = .ok (m', b, at_front)) :
    Inv m' ∧ m'.m_tickled = (m.m_tickled || at_front) ∧
      (m.m_tickled = false → at_front = false → Later m' m) := by
  rcases h.of_reset hrun with ⟨rfl, rfl⟩ | ⟨hin, hinv, hheap, hmem, -, htick, hfront⟩
  · exact ⟨h, (Bool.or_false _).symm, fun _ _ => Later.refl _⟩
  refine ⟨hinv, htick, ?_⟩
  rintro hm rfl
  refine Later.of_put hheap (fun y hy => Or.inr ((hmem y).mp hy)) fun _ => ?_
  simp only [Bool.false_eq_true, hm, true_and, false_iff, not_forall] at hfront
  obtain ⟨y, hy, hyt, hless⟩ := hfront
  have hle := le_of_not_less hless
  rw [timer_congr hheap, timer_congr hheap, timer_put_self, timer_put_ne _ _ hyt] at hle
  exact ⟨y, hy, hle⟩

theorem inv_getNextTimer {m : TimerManager φ ω} (h : Inv m) (now : UInt64) :
    Inv (m.getNextTimer now).1 ∧ (m.getNextTimer now).1 = { m with m_tickled := false } := by
  have heq : (m.getNextTimer now).1 = { m with m_tickled := false } := by
    simp only [getNextTimer]
    split
    · rfl
    · split <;> rfl
  exact ⟨heq ▸ h.congr rfl rfl, heq⟩

end Captain.TimerManager
