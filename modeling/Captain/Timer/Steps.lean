import Captain.Timer.Threads

/-!
# What a step of the threads writes

* `Step.timers`: a timer of the set is as it was, or new, or armed again with its callback.
* `Step.constructed`, `Step.reading`: the clock readings that a thread carries are those of its last
  step or taken now.
-/

namespace Captain.TimerManager.Threads

variable {φ ω ι : Type} [DecidableEq ι] {s s' : Threads φ ω ι} {l : Label φ ω ι}

/-- The step arms the timer `t` again. -/
def Rearms (s : Threads φ ω ι) (t : Nat) : Label φ ω ι → Prop
  | .refresh _ t' | .reset _ t' _ _ => t' = t
  | .pass .. => (s.mgr.timer t).m_recurring = true
  | _ => False

omit [DecidableEq ι] in
/-- A timer that does not recur is armed again only by a call on it. -/
theorem Rearms.called {t : Nat} (h : Rearms s t l) (hrec : (s.mgr.timer t).m_recurring = false) :
    (∃ i, l = .refresh i t) ∨ ∃ i ms from_now, l = .reset i t ms from_now := by
  cases l with
  | refresh i t' =>
    obtain rfl : t' = t := h
    exact Or.inl ⟨i, rfl⟩
  | reset i t' ms from_now =>
    obtain rfl : t' = t := h
    exact Or.inr ⟨i, ms, from_now, rfl⟩
  | pass => exact absurd (hrec.symm.trans h) Bool.false_ne_true
  | _ => cases h

theorem timer_of_put {m m' : TimerManager φ ω} {t a : Nat} {v : Timer φ ω}
    (hheap : m'.heap = (m.put t v).heap) (h : a ≠ t) : m'.timer a = m.timer a := by
  rw [timer_congr hheap, timer_put_ne _ _ h]

theorem Step.timers (hstep : Step s l s') (h : Inv s.mgr) {t : Nat} (ht : t ∈ s'.mgr.m_timers) :
    (t ∈ s.mgr.m_timers ∧ s'.mgr.timer t = s.mgr.timer t) ∨
    (∃ i ms cb recurring now, l = .insert i ∧ s.pc i = .constructed t ms cb recurring now ∧
      s'.mgr.timer t =
        { m_recurring := recurring, m_ms := ms, m_next := now + ms, m_cb := cb }) ∨
    (t ∈ s.mgr.m_timers ∧ s.Rearms t l ∧
      (s'.mgr.timer t).m_cb = (s.mgr.timer t).m_cb) := by
  cases hstep with
  | tick | construct | announce | readClock | test => exact Or.inl ⟨ht, rfl⟩
  | @insert i t' ms cb recurring now hpc hnew m at_front hrun =>
    obtain ⟨m', at_front', hrun', -, hheap, hmem, -⟩ := h.addTimer_spec hnew ms cb recurring now
    rw [hrun'] at hrun
    cases hrun
    by_cases htt : t = t'
    · subst htt
      refine Or.inr (Or.inl ⟨i, ms, cb, recurring, now, rfl, hpc, ?_⟩)
      show m.timer t = _
      rw [timer_congr hheap, timer_put_self]
    · exact Or.inl ⟨((hmem t).mp ht).resolve_left htt, timer_of_put hheap htt⟩
  | cancel hpc hsome hrun =>
    rcases h.of_cancel hrun with rfl | ⟨-, hheap, hmem, -⟩
    · exact Or.inl ⟨ht, rfl⟩
    · obtain ⟨hold, hne⟩ := (hmem t).mp ht
      exact Or.inl ⟨hold, timer_of_put hheap hne⟩
  | @refresh i hpc t' hsome m b hrun =>
    rcases h.of_refresh hrun with rfl | ⟨-, -, hheap, hmem, -⟩
    · exact Or.inl ⟨ht, rfl⟩
    · by_cases htt : t = t'
      · subst htt
        refine Or.inr (Or.inr ⟨(hmem t).mp ht, rfl, ?_⟩)
        show (m.timer t).m_cb = _
        rw [timer_congr hheap, timer_put_self]
      · exact Or.inl ⟨(hmem t).mp ht, timer_of_put hheap htt⟩
  | @reset i hpc t' hsome ms from_now m b at_front hrun =>
    rcases h.of_reset hrun with ⟨rfl, -⟩ | ⟨-, -, hheap, hmem, -⟩
    · exact Or.inl ⟨ht, rfl⟩
    · by_cases htt : t = t'
      · subst htt
        refine Or.inr (Or.inr ⟨(hmem t).mp ht, rfl, ?_⟩)
        show (m.timer t).m_cb = _
        rw [timer_congr hheap, timer_put_self]
        rfl
      · exact Or.inl ⟨(hmem t).mp ht, timer_of_put hheap htt⟩
  | getNextTimer hpc =>
    have heq := (inv_getNextTimer h s.clock).2
    refine Or.inl ?_
    change t ∈ (s.mgr.getNextTimer s.clock).1.m_timers at ht
    change t ∈ s.mgr.m_timers ∧ (s.mgr.getNextTimer s.clock).1.timer t = _
    rw [heq] at ht ⊢
    exact ⟨ht, rfl⟩
  | @pass i now_ms hpc now_timer m expired cbs hrun =>
    have hexp := h.of_expirePass hrun
    obtain ⟨hold, hrec⟩ := (hexp.mem_iff t).mp ht
    by_cases hin : t ∈ expired
    · refine Or.inr (Or.inr ⟨hold, hrec hin, ?_⟩)
      show (m.timer t).m_cb = _
      rw [timer_expired hexp, if_pos hin, firedTimer, if_pos (hrec hin)]
    · refine Or.inl ⟨hold, ?_⟩
      show m.timer t = _
      rw [timer_expired hexp, if_neg hin]

/-- An address that is in use stays in use. -/
theorem Step.heap (hstep : Step s l s') (h : Inv s.mgr) {t : Nat} (ht : (s.mgr.heap t).isSome) :
    (s'.mgr.heap t).isSome := by
  have hput : ∀ {m : TimerManager φ ω} {t' : Nat} {v : Timer φ ω},
      m.heap = (s.mgr.put t' v).heap → (m.heap t).isSome := by
    intro m t' v hheap
    rw [hheap]
    exact Held.heap_put_isSome _ _ _ (Or.inr ht)
  cases hstep with
  | tick | construct | announce | readClock | test => exact ht
  | @insert i t' ms cb recurring now hpc hnew m at_front hrun =>
    obtain ⟨m', at_front', hrun', -, hheap, -⟩ := h.addTimer_spec hnew ms cb recurring now
    rw [hrun'] at hrun
    cases hrun
    exact hput hheap
  | cancel hpc hsome hrun =>
    rcases h.of_cancel hrun with rfl | ⟨-, hheap, -⟩
    · exact ht
    · exact hput hheap
  | refresh hpc hsome hrun =>
    rcases h.of_refresh hrun with rfl | ⟨-, -, hheap, -⟩
    · exact ht
    · exact hput hheap
  | reset hpc hsome hrun =>
    rcases h.of_reset hrun with ⟨rfl, -⟩ | ⟨-, -, hheap, -⟩
    · exact ht
    · exact hput hheap
  | getNextTimer hpc =>
    change ((s.mgr.getNextTimer s.clock).1.heap t).isSome
    rw [(inv_getNextTimer h s.clock).2]
    exact ht
  | @pass i now_ms hpc now_timer m expired cbs hrun =>
    change (m.heap t).isSome
    rw [(h.of_expirePass hrun).heap]
    split
    · rfl
    · exact ht

theorem Step.clock (hstep : Step s l s') (hl : ∀ now, l ≠ .tick now) : s'.clock = s.clock := by
  cases hstep with
  | tick now => exact absurd rfl (hl now)
  | _ => rfl

theorem Step.constructed (hstep : Step s l s') {j : ι} {t : Nat} {ms now : UInt64}
    {cb : Option (Callback φ ω)} {recurring : Bool}
    (hpc' : s'.pc j = .constructed t ms cb recurring now) :
    s.pc j = .constructed t ms cb recurring now ∨
      l = .construct j t ms cb recurring ∧ now = s.clock := by
  cases hstep with
  | tick => exact Or.inl hpc'
  | construct hpc t' ms' cb' recurring' =>
    rw [goto_pc] at hpc'
    split at hpc'
    · rename_i hij
      cases hpc'
      exact Or.inr ⟨by rw [hij], rfl⟩
    · exact Or.inl hpc'
  | announce | cancel | refresh | getNextTimer | readClock | pass =>
    rw [goto_pc] at hpc'
    split at hpc'
    · cases hpc'
    · exact Or.inl hpc'
  | insert | reset =>
    rw [goto_pc] at hpc'
    split at hpc'
    · simp only [atFront] at hpc'
      split at hpc' <;> cases hpc'
    · exact Or.inl hpc'
  | test =>
    rw [goto_pc] at hpc'
    split at hpc'
    · split at hpc' <;> cases hpc'
    · exact Or.inl hpc'

/-- The clock reading of a call of `listExpiredCb`. -/
def Listing (p : Pc φ ω) (now_ms : UInt64) : Prop := p = .listing now_ms ∨ p = .expiring now_ms

theorem Step.reading (hstep : Step s l s') {j : ι} {now_ms : UInt64}
    (hpc' : Listing (s'.pc j) now_ms) : Listing (s.pc j) now_ms ∨ now_ms = s.clock := by
  have hidle : ∀ {p : Pc φ ω}, Listing p now_ms → p ≠ .idle ∧ p ≠ .announcing := by
    rintro p (rfl | rfl) <;> exact ⟨nofun, nofun⟩
  cases hstep with
  | tick => exact Or.inl hpc'
  | construct =>
    rw [goto_pc] at hpc'
    split at hpc'
    · rcases hpc' with hpc' | hpc' <;> cases hpc'
    · exact Or.inl hpc'
  | announce | cancel | refresh | getNextTimer | pass =>
    rw [goto_pc] at hpc'
    split at hpc'
    · exact absurd rfl (hidle hpc').1
    · exact Or.inl hpc'
  | insert | reset =>
    rw [goto_pc] at hpc'
    split at hpc'
    · simp only [atFront] at hpc'
      split at hpc'
      · exact absurd rfl (hidle hpc').2
      · exact absurd rfl (hidle hpc').1
    · exact Or.inl hpc'
  | readClock hpc =>
    rw [goto_pc] at hpc'
    split at hpc'
    · refine Or.inr ?_
      rcases hpc' with hpc' | hpc' <;> cases hpc'
      rfl
    · exact Or.inl hpc'
  | @test i now₀ hpc =>
    rw [goto_pc] at hpc'
    split at hpc'
    · rename_i hij
      subst hij
      split at hpc'
      · exact absurd rfl (hidle hpc').1
      · rcases hpc' with hpc' | hpc' <;> cases hpc'
        exact Or.inl (Or.inl hpc)
    · exact Or.inl hpc'

end Captain.TimerManager.Threads
