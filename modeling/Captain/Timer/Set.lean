import Captain.Timer.Model
import Mathlib.Data.List.Nodup

/-!
# The timer set and the operations on it

`Held m out` is the invariant of the timer set while the timers of the list `out` are taken out
of it: the set is sorted by `Timer::Comparator`, and every timer that has a callback is in the
set or taken out. Between calls nothing is taken out (`Inv`). A timer in the set may lack a
callback, when `addTimer` was given an empty one.

Each operation has a lemma that says it runs without a fault and what it leaves: the objects on
the heap, the members of the set, `m_tickled` and `m_previouseTime`.
-/

namespace Captain.TimerManager

open OrderedSet

variable {φ ω : Type}

/-! ## The order of the set -/

theorem less_iff (m : TimerManager φ ω) (a b : Nat) : m.less a b = true ↔
    (m.timer a).m_next.toNat < (m.timer b).m_next.toNat ∨
      (m.timer a).m_next.toNat = (m.timer b).m_next.toNat ∧ a < b := by
  simp only [less, Timer.Comparator, UInt64.lt_iff_toNat_lt]
  split
  · simp [*]
  · split
    · simp
      omega
    · simp
      omega

theorem strictTotal_less (m : TimerManager φ ω) : StrictTotal m.less where
  irrefl a := by
    rw [← Bool.not_eq_true, less_iff]
    omega
  trans := by
    intro a b c
    simp only [less_iff]
    omega
  total := by
    intro a b hab
    simp only [less_iff]
    omega

theorem sorted_congr {m m' : TimerManager φ ω} {l : List Nat} (hs : Sorted m.less l)
    (h : ∀ t ∈ l, (m'.timer t).m_next = (m.timer t).m_next) : Sorted m'.less l := by
  refine List.Pairwise.imp_of_mem (fun {a b} ha hb hab => ?_) hs
  rw [less_iff] at hab ⊢
  rwa [h a ha, h b hb]

/-! ## The heap -/

theorem timer_put (m : TimerManager φ ω) (t : Nat) (v : Timer φ ω) (a : Nat) :
    (m.put t v).timer a = if a = t then v else m.timer a := by
  simp only [timer, put]
  split <;> rfl

@[simp] theorem timer_put_self (m : TimerManager φ ω) (t : Nat) (v : Timer φ ω) :
    (m.put t v).timer t = v := by rw [timer_put, if_pos rfl]

theorem timer_put_ne (m : TimerManager φ ω) {t a : Nat} (v : Timer φ ω) (h : a ≠ t) :
    (m.put t v).timer a = m.timer a := by rw [timer_put, if_neg h]

@[simp] theorem put_m_timers (m : TimerManager φ ω) (t : Nat) (v : Timer φ ω) :
    (m.put t v).m_timers = m.m_timers := rfl

theorem put_put (m : TimerManager φ ω) (t : Nat) (v w : Timer φ ω) :
    (m.put t v).put t w = m.put t w := by
  simp only [put, mk.injEq, and_true]
  funext a
  split <;> rfl

theorem timer_congr {m m' : TimerManager φ ω} (h : m'.heap = m.heap) (t : Nat) :
    m'.timer t = m.timer t := by rw [timer, timer, h]

/-! ## Taking timers out of the set and putting them back -/

structure Held (m : TimerManager φ ω) (out : List Nat) : Prop where
  sorted : Sorted m.less m.m_timers
  mem_of_cb : ∀ t, (m.timer t).m_cb.isSome → t ∈ m.m_timers ∨ t ∈ out
  alloc : ∀ t, t ∈ m.m_timers ∨ t ∈ out → (m.heap t).isSome
  apart : ∀ t ∈ out, t ∉ m.m_timers
  nodup : out.Nodup

/-- The invariant between calls. -/
abbrev Inv (m : TimerManager φ ω) : Prop := Held m []

theorem inv_new (now : UInt64) : Inv (new now : TimerManager φ ω) where
  sorted := List.Pairwise.nil
  mem_of_cb t := by simp [timer, new]
  alloc t := by simp [new]
  apart := by simp
  nodup := List.nodup_nil

namespace Held

variable {m : TimerManager φ ω} {out : List Nat}

theorem congr {m' : TimerManager φ ω} (h : Held m out) (hheap : m'.heap = m.heap)
    (hset : m'.m_timers = m.m_timers) : Held m' out where
  sorted := by
    rw [hset]
    exact sorted_congr h.sorted fun t _ => by rw [timer_congr hheap]
  mem_of_cb t := by
    rw [timer_congr hheap, hset]
    exact h.mem_of_cb t
  alloc t := by
    rw [hheap, hset]
    exact h.alloc t
  apart := by
    rw [hset]
    exact h.apart
  nodup := h.nodup

theorem mem_of_isSome (h : Inv m) {t : Nat} (ht : (m.timer t).m_cb.isSome) : t ∈ m.m_timers := by
  simpa using h.mem_of_cb t ht

theorem isSome_of_mem (h : Inv m) {t : Nat} (ht : t ∈ m.m_timers) : (m.heap t).isSome :=
  h.alloc t (Or.inl ht)

/-- Looking up a timer of the set hits it, and erasing what was found takes it out. -/
theorem findErase (h : Inv m) {t : Nat} (ht : t ∈ m.m_timers) :
    m.m_timers[find m.less t m.m_timers]? = some t ∧
      ∃ m', m.findErase t = .ok m' ∧ Held m' [t] ∧ m'.heap = m.heap ∧
        m'.m_tickled = m.m_tickled ∧ m'.m_previouseTime = m.m_previouseTime ∧
        ∀ y, y ∈ m'.m_timers ↔ y ∈ m.m_timers ∧ y ≠ t := by
  obtain ⟨hhit, ts, herase, hsub, hmem⟩ := erase_find m.strictTotal_less h.sorted ht
  refine ⟨hhit, { m with m_timers := ts }, by rw [TimerManager.findErase, herase], ?_,
    rfl, rfl, rfl, hmem⟩
  have hless : (less { m with m_timers := ts } : Nat → Nat → Bool) = m.less := rfl
  refine ⟨by rw [hless]; exact h.sorted.sublist hsub, ?_, ?_, ?_, List.nodup_singleton t⟩
  · intro a hcb
    simp only [hmem, List.mem_singleton]
    have ha : a ∈ m.m_timers := h.mem_of_isSome hcb
    tauto
  · intro a ha
    simp only [hmem, List.mem_singleton] at ha
    rcases ha with ha | rfl
    · exact h.isSome_of_mem ha.1
    · exact h.isSome_of_mem ht
  · intro a ha
    rw [List.mem_singleton] at ha
    subst ha
    simp [hmem]

theorem find_ne_end (h : Inv m) {t : Nat} (ht : t ∈ m.m_timers) :
    find m.less t m.m_timers ≠ m.m_timers.length := by
  intro hend
  have hhit := (h.findErase ht).1
  rw [hend, List.getElem?_eq_none (Nat.le_refl _)] at hhit
  cases hhit

/-- Dropping the callback does not move a timer in the order. -/
theorem findErase_put_cb (m : TimerManager φ ω) (t : Nat) (cb : Option (Callback φ ω))
    {m' : TimerManager φ ω} (h : m.findErase t = .ok m') :
    (m.put t { m.timer t with m_cb := cb }).findErase t =
      .ok (m'.put t { m.timer t with m_cb := cb }) := by
  have hless : (m.put t { m.timer t with m_cb := cb }).less = m.less := by
    funext a b
    have hnext : ∀ c, ((m.put t { m.timer t with m_cb := cb }).timer c).m_next =
        (m.timer c).m_next := by
      intro c
      rw [timer_put]
      split
      · rename_i hc
        rw [hc]
      · rfl
    rw [Bool.eq_iff_iff, less_iff, less_iff, hnext, hnext]
  simp only [TimerManager.findErase, hless, put_m_timers] at h ⊢
  split at h
  · cases h
  · cases h
    rfl

theorem heap_put_isSome (m : TimerManager φ ω) (t : Nat) (v : Timer φ ω) {a : Nat}
    (h : a = t ∨ (m.heap a).isSome) : ((m.put t v).heap a).isSome := by
  simp only [TimerManager.put]
  split
  · rfl
  · exact h.resolve_left ‹_›

/-- A timer that is out of the set may be changed. -/
theorem put (h : Held m out) {t : Nat} (ht : t ∈ out) (v : Timer φ ω) :
    Held (m.put t v) out where
  sorted := sorted_congr h.sorted fun a ha => by
    rw [timer_put_ne]
    rintro rfl
    exact h.apart a ht ha
  mem_of_cb a := by
    rw [put_m_timers]
    by_cases ha : a = t
    · subst ha
      exact fun _ => Or.inr ht
    · rw [timer_put_ne _ _ ha]
      exact h.mem_of_cb a
  alloc a ha := heap_put_isSome m t v (Or.inr (h.alloc a ha))
  apart := h.apart
  nodup := h.nodup

theorem setNext (h : Held m out) {t : Nat} (ht : t ∈ out) (next : UInt64) :
    m.setNext t next = .ok (m.put t { m.timer t with m_next := next }) ∧
      Held (m.put t { m.timer t with m_next := next }) out :=
  ⟨if_neg (h.apart t ht), h.put ht _⟩

theorem insertSet {t : Nat} (h : Held m (t :: out)) :
    Held (m.insertSet t) out ∧ ∀ y, y ∈ (m.insertSet t).m_timers ↔ y = t ∨ y ∈ m.m_timers := by
  have ht : t ∉ m.m_timers := h.apart t List.mem_cons_self
  obtain ⟨hsorted, hmem, -⟩ := insert_spec m.strictTotal_less h.sorted ht
  obtain ⟨hnot, hnodup⟩ := List.nodup_cons.mp h.nodup
  refine ⟨⟨hsorted, ?_, ?_, ?_, hnodup⟩, hmem⟩
  · intro a hcb
    have hold := h.mem_of_cb a hcb
    have hset : a ∈ (m.insertSet t).m_timers ↔ a = t ∨ a ∈ m.m_timers := hmem a
    rw [List.mem_cons] at hold
    rw [hset]
    tauto
  · intro a ha
    have hset : a ∈ (m.insertSet t).m_timers ↔ a = t ∨ a ∈ m.m_timers := hmem a
    rw [hset] at ha
    apply h.alloc a
    rw [List.mem_cons]
    tauto
  · intro a ha
    have hset : a ∈ (m.insertSet t).m_timers ↔ a = t ∨ a ∈ m.m_timers := hmem a
    rw [hset, not_or]
    refine ⟨?_, h.apart a (List.mem_cons_of_mem _ ha)⟩
    rintro rfl
    exact hnot ha

/-- Dropping the callback of a timer that is out of the set ends its life there. -/
theorem drop {t : Nat} (h : Held m (t :: out)) {v : Timer φ ω} (hv : v.m_cb = none) :
    Held (m.put t v) out := by
  have ht : t ∉ m.m_timers := h.apart t List.mem_cons_self
  obtain ⟨hnot, hnodup⟩ := List.nodup_cons.mp h.nodup
  refine ⟨sorted_congr h.sorted fun a ha => ?_, ?_, ?_,
    fun a ha => h.apart a (List.mem_cons_of_mem _ ha), hnodup⟩
  · rw [timer_put_ne]
    rintro rfl
    exact ht ha
  · intro a hcb
    by_cases ha : a = t
    · subst ha
      simp [hv] at hcb
    · rw [timer_put_ne _ _ ha] at hcb
      have hold := h.mem_of_cb a hcb
      rw [List.mem_cons] at hold
      rw [put_m_timers]
      tauto
  · intro a ha
    rw [put_m_timers] at ha
    refine heap_put_isSome m t v (Or.inr (h.alloc a ?_))
    rw [List.mem_cons]
    tauto

/-- A new timer, not yet in the set. -/
theorem alloc_new (h : Inv m) {t : Nat} (ht : m.heap t = none) (v : Timer φ ω) :
    Held (m.put t v) [t] := by
  have hnot : t ∉ m.m_timers := by
    intro hmem
    have := h.isSome_of_mem hmem
    simp [ht] at this
  refine ⟨sorted_congr h.sorted fun a ha => ?_, ?_, ?_, ?_, List.nodup_singleton t⟩
  · rw [timer_put_ne]
    rintro rfl
    exact hnot ha
  · intro a hcb
    by_cases ha : a = t
    · exact Or.inr (List.mem_singleton.mpr ha)
    · rw [timer_put_ne _ _ ha] at hcb
      exact Or.inl (h.mem_of_isSome hcb)
  · intro a ha
    apply heap_put_isSome m t v
    rw [List.mem_singleton] at ha
    exact ha.symm.imp_right h.isSome_of_mem
  · simpa using hnot

/-- `addTimer(val, lock)`: the timer enters the set, and `m_tickled` is set together with the
announcement, which is made when the timer comes before all others and none was made since
`m_tickled` was last false. -/
theorem insertTimer {t : Nat} (h : Held m (t :: out)) :
    Held (m.insertTimer t).1 out ∧
      (∀ y, y ∈ (m.insertTimer t).1.m_timers ↔ y = t ∨ y ∈ m.m_timers) ∧
      (m.insertTimer t).1.heap = m.heap ∧
      (m.insertTimer t).1.m_previouseTime = m.m_previouseTime ∧
      (m.insertTimer t).1.m_tickled = (m.m_tickled || (m.insertTimer t).2) ∧
      ((m.insertTimer t).2 = true ↔
        m.m_tickled = false ∧ ∀ y ∈ m.m_timers, m.less t y = true) := by
  have ht : t ∉ m.m_timers := h.apart t List.mem_cons_self
  obtain ⟨-, -, hfront⟩ := insert_spec m.strictTotal_less h.sorted ht
  obtain ⟨hheld, hmem⟩ := h.insertSet
  simp only [TimerManager.insertTimer]
  split
  · rename_i hcond
    have htickled : m.m_tickled = false := hcond.2
    exact ⟨hheld.congr rfl rfl, hmem, rfl, rfl, by simp,
      iff_of_true rfl ⟨htickled, hfront.mp hcond.1⟩⟩
  · rename_i hcond
    refine ⟨hheld, hmem, rfl, rfl, ?_, ?_⟩
    · simp [TimerManager.insertSet]
    · rw [hfront] at hcond
      simp only [Bool.false_eq_true, false_iff]
      tauto

end Held

theorem insertTimer_ne_nil (m : TimerManager φ ω) (t : Nat) :
    (m.insertTimer t).1.m_timers ≠ [] := by
  simp only [insertTimer]
  split <;> exact insert_ne_nil t m.m_timers

/-! ## The operations -/

/-- What `reset` writes into a timer. -/
def resetTimer (old : Timer φ ω) (ms : UInt64) (from_now : Bool) (now : UInt64) : Timer φ ω :=
  { old with m_ms := ms, m_next := (if from_now then now else old.m_next - old.m_ms) + ms }

theorem cancel_of_isNone {m : TimerManager φ ω} {t : Nat} (hcb : (m.timer t).m_cb = none) :
    m.cancel t = .ok (m, false) := by
  rw [TimerManager.cancel, hcb]
  rfl

theorem refresh_of_isNone {m : TimerManager φ ω} {t : Nat} (hcb : (m.timer t).m_cb = none)
    (now : UInt64) : m.refresh t now = .ok (m, false) := by
  rw [TimerManager.refresh, hcb]
  rfl

theorem reset_of_isNone {m : TimerManager φ ω} {t : Nat} (hcb : (m.timer t).m_cb = none)
    {ms : UInt64} {from_now : Bool} (hdo : ¬(ms = (m.timer t).m_ms ∧ from_now = false))
    (now : UInt64) : m.reset t ms from_now now = .ok (m, false, false) := by
  rw [TimerManager.reset, if_neg hdo, hcb]
  rfl

theorem reset_same (m : TimerManager φ ω) (t : Nat) (now : UInt64) :
    m.reset t (m.timer t).m_ms false now = .ok (m, true, false) := by
  rw [TimerManager.reset, if_pos ⟨rfl, rfl⟩]

namespace Held

variable {m : TimerManager φ ω} (h : Inv m)
include h

theorem addTimer_spec {t : Nat} (ht : m.heap t = none) (ms : UInt64) (cb : Option (Callback φ ω))
    (recurring : Bool) (now : UInt64) :
    ∃ m' at_front, m.addTimer t ms cb recurring now = (m', at_front) ∧ Inv m' ∧
      m'.heap = (m.put t
        { m_recurring := recurring, m_ms := ms, m_next := now + ms, m_cb := cb }).heap ∧
      (∀ y, y ∈ m'.m_timers ↔ y = t ∨ y ∈ m.m_timers) ∧
      m'.m_previouseTime = m.m_previouseTime ∧ m'.m_tickled = (m.m_tickled || at_front) ∧
      (at_front = true ↔ m.m_tickled = false ∧ ∀ y ∈ m.m_timers, m'.less t y = true) := by
  have hheld : Held (m.put t
      { m_recurring := recurring, m_ms := ms, m_next := now + ms, m_cb := cb }) [t] :=
    h.alloc_new ht _
  obtain ⟨hinv, hmem, hheap, hprev, htick, hfront⟩ := hheld.insertTimer
  refine ⟨(m.addTimer t ms cb recurring now).1, (m.addTimer t ms cb recurring now).2,
    rfl, hinv, hheap, hmem, hprev, htick, hfront.trans ?_⟩
  unfold addTimer
  refine and_congr Iff.rfl (forall₂_congr fun y _ => ?_)
  rw [less_iff, less_iff, timer_congr hheap, timer_congr hheap]

theorem cancel_of_isSome {t : Nat} (hcb : (m.timer t).m_cb.isSome) :
    ∃ m', m.cancel t = .ok (m', true) ∧ Inv m' ∧
      m'.heap = (m.put t { m.timer t with m_cb := none }).heap ∧
      (∀ y, y ∈ m'.m_timers ↔ y ∈ m.m_timers ∧ y ≠ t) ∧
      m'.m_tickled = m.m_tickled ∧ m'.m_previouseTime = m.m_previouseTime := by
  obtain ⟨-, m', hfe, hheld, hheap, htick, hprev, hmem⟩ := h.findErase (h.mem_of_isSome hcb)
  refine ⟨m'.put t { m.timer t with m_cb := none }, ?_, hheld.drop rfl, ?_, hmem, htick, hprev⟩
  · rw [TimerManager.cancel, if_pos hcb]
    simp only [findErase_put_cb m t none hfe, bind, Except.bind]
  · simp only [TimerManager.put, hheap]


theorem refresh_of_isSome {t : Nat} (hcb : (m.timer t).m_cb.isSome) (now : UInt64) :
    ∃ m', m.refresh t now = .ok (m', true) ∧ Inv m' ∧
      m'.heap = (m.put t { m.timer t with m_next := now + (m.timer t).m_ms }).heap ∧
      (∀ y, y ∈ m'.m_timers ↔ y ∈ m.m_timers) ∧
      m'.m_tickled = m.m_tickled ∧ m'.m_previouseTime = m.m_previouseTime := by
  have ht : t ∈ m.m_timers := h.mem_of_isSome hcb
  obtain ⟨-, m₁, hfe, hheld, hheap, htick, hprev, hmem⟩ := h.findErase ht
  obtain ⟨hset, hheld'⟩ := hheld.setNext List.mem_cons_self (now + (m.timer t).m_ms)
  obtain ⟨hinv, hmem'⟩ := hheld'.insertSet
  rw [timer_congr hheap] at hset hinv hmem'
  refine ⟨(m₁.put t { m.timer t with m_next := now + (m.timer t).m_ms }).insertSet t, ?_, hinv,
    ?_, ?_, htick, hprev⟩
  · rw [TimerManager.refresh, if_neg (by simp [Option.isSome_iff_ne_none.mp hcb]),
      if_neg (h.find_ne_end ht)]
    simp only [hfe, bind, Except.bind, timer_congr hheap, hset]
  · simp only [TimerManager.insertSet, TimerManager.put, hheap]
  · intro y
    rw [hmem', put_m_timers, hmem]
    by_cases hy : y = t
    · simp [hy, ht]
    · simp [hy]

/-- A `reset` that does something: the timer gets its new period, counted from now or from the
time it was last armed, and re-enters the set through `addTimer`. -/
theorem reset_of_isSome {t : Nat} (hcb : (m.timer t).m_cb.isSome) {ms : UInt64} {from_now : Bool}
    (hdo : ¬(ms = (m.timer t).m_ms ∧ from_now = false)) (now : UInt64) :
    ∃ m' at_front, m.reset t ms from_now now = .ok (m', true, at_front) ∧ Inv m' ∧
      m'.heap = (m.put t (resetTimer (m.timer t) ms from_now now)).heap ∧
      (∀ y, y ∈ m'.m_timers ↔ y ∈ m.m_timers) ∧
      m'.m_previouseTime = m.m_previouseTime ∧ m'.m_tickled = (m.m_tickled || at_front) ∧
      (at_front = true ↔ m.m_tickled = false ∧ ∀ y ∈ m.m_timers, y ≠ t → m'.less t y = true) := by
  have ht : t ∈ m.m_timers := h.mem_of_isSome hcb
  obtain ⟨-, m₁, hfe, hheld, hheap₁, htick₁, hprev₁, hmem⟩ := h.findErase ht
  have hms := hheld.put List.mem_cons_self { m.timer t with m_ms := ms }
  obtain ⟨hset, hheld'⟩ := hms.setNext List.mem_cons_self
    ((if from_now then now else (m.timer t).m_next - (m.timer t).m_ms) + ms)
  simp only [timer_put_self, put_put] at hset hheld'
  change Held (m₁.put t (resetTimer (m.timer t) ms from_now now)) [t] at hheld'
  obtain ⟨hinv, hmem', hheap, hprev, htick, hfront⟩ := hheld'.insertTimer
  refine ⟨((m₁.put t (resetTimer (m.timer t) ms from_now now)).insertTimer t).1,
    ((m₁.put t (resetTimer (m.timer t) ms from_now now)).insertTimer t).2, ?_, hinv, ?_, ?_,
    hprev.trans hprev₁, ?_, ?_⟩
  · rw [TimerManager.reset, if_neg hdo, if_neg (by simp [Option.isSome_iff_ne_none.mp hcb]),
      if_neg (h.find_ne_end ht)]
    simp only [hfe, bind, Except.bind, timer_congr hheap₁, hset]
    rfl
  · rw [hheap]
    simp only [TimerManager.put, hheap₁]
  · intro y
    rw [hmem', put_m_timers, hmem]
    by_cases hy : y = t
    · simp [hy, ht]
    · simp [hy]
  · rw [htick, ← htick₁]
    rfl
  · rw [hfront, ← htick₁]
    refine and_congr Iff.rfl ⟨fun hall y hy hne => ?_, fun hall y hy => ?_⟩
    · have hlt := hall y ((hmem y).mpr ⟨hy, hne⟩)
      rw [less_iff] at hlt ⊢
      rwa [timer_congr hheap, timer_congr hheap]
    · obtain ⟨hy, hne⟩ := (hmem y).mp hy
      have hlt := hall y hy hne
      rw [less_iff] at hlt ⊢
      rwa [timer_congr hheap, timer_congr hheap] at hlt

/-! What a call did, read off its result. -/

theorem of_cancel {t : Nat} {m' : TimerManager φ ω} {b : Bool}
    (hrun : m.cancel t = .ok (m', b)) : m' = m ∨ Inv m' ∧
      m'.heap = (m.put t { m.timer t with m_cb := none }).heap ∧
      (∀ y, y ∈ m'.m_timers ↔ y ∈ m.m_timers ∧ y ≠ t) ∧
      m'.m_tickled = m.m_tickled ∧ m'.m_previouseTime = m.m_previouseTime := by
  by_cases hcb : (m.timer t).m_cb.isSome
  · obtain ⟨m₁, hrun₁, hspec⟩ := h.cancel_of_isSome hcb
    rw [hrun₁] at hrun
    cases hrun
    exact Or.inr hspec
  · rw [cancel_of_isNone (by simpa using hcb)] at hrun
    cases hrun
    exact Or.inl rfl

theorem of_refresh {t : Nat} {now : UInt64} {m' : TimerManager φ ω} {b : Bool}
    (hrun : m.refresh t now = .ok (m', b)) : m' = m ∨ t ∈ m.m_timers ∧ Inv m' ∧
      m'.heap = (m.put t { m.timer t with m_next := now + (m.timer t).m_ms }).heap ∧
      (∀ y, y ∈ m'.m_timers ↔ y ∈ m.m_timers) ∧
      m'.m_tickled = m.m_tickled ∧ m'.m_previouseTime = m.m_previouseTime := by
  by_cases hcb : (m.timer t).m_cb.isSome
  · obtain ⟨m₁, hrun₁, hspec⟩ := h.refresh_of_isSome hcb now
    rw [hrun₁] at hrun
    cases hrun
    exact Or.inr ⟨h.mem_of_isSome hcb, hspec⟩
  · rw [refresh_of_isNone (by simpa using hcb)] at hrun
    cases hrun
    exact Or.inl rfl

theorem of_reset {t : Nat} {ms now : UInt64} {from_now : Bool} {m' : TimerManager φ ω}
    {b at_front : Bool} (hrun : m.reset t ms from_now now = .ok (m', b, at_front)) :
    m' = m ∧ at_front = false ∨ t ∈ m.m_timers ∧ Inv m' ∧
      m'.heap = (m.put t (resetTimer (m.timer t) ms from_now now)).heap ∧
      (∀ y, y ∈ m'.m_timers ↔ y ∈ m.m_timers) ∧
      m'.m_previouseTime = m.m_previouseTime ∧ m'.m_tickled = (m.m_tickled || at_front) ∧
      (at_front = true ↔ m.m_tickled = false ∧ ∀ y ∈ m.m_timers, y ≠ t → m'.less t y = true) := by
  by_cases hsame : ms = (m.timer t).m_ms ∧ from_now = false
  · obtain ⟨rfl, rfl⟩ := hsame
    rw [reset_same] at hrun
    cases hrun
    exact Or.inl ⟨rfl, rfl⟩
  by_cases hcb : (m.timer t).m_cb.isSome
  · obtain ⟨m₁, at_front₁, hrun₁, hspec⟩ := h.reset_of_isSome hcb hsame now
    rw [hrun₁] at hrun
    cases hrun
    exact Or.inr ⟨h.mem_of_isSome hcb, hspec⟩
  · rw [reset_of_isNone (by simpa using hcb) hsame] at hrun
    cases hrun
    exact Or.inl ⟨rfl, rfl⟩

end Held

end Captain.TimerManager
