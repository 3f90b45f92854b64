import Captain.Timer.Set

/-!
# The expiry pass

`expirePass_spec` says what the section of `listExpiredCb` under the write lock does to a set
in order: it takes out the timers that are due (all of them after a clock rollover), returns
their callbacks in the order of the set, re-arms the recurring ones and ends the others.
-/

namespace Captain.TimerManager

open OrderedSet

variable {φ ω : Type}

/-- What `listExpiredCb` leaves of a timer it fires. -/
def firedTimer (now_ms : UInt64) (old : Timer φ ω) : Timer φ ω :=
  if old.m_recurring then { old with m_next := now_ms + old.m_ms } else { old with m_cb := none }

/-! ## The loop over the expired timers -/

namespace Held

variable {m : TimerManager φ ω} {out : List Nat}

theorem fireOne_spec {t : Nat} (h : Held m (t :: out)) (now_ms : UInt64) :
    ∃ m', m.fireOne now_ms t = .ok m' ∧ Held m' out ∧
      m'.heap = (m.put t (firedTimer now_ms (m.timer t))).heap ∧
      (∀ y, y ∈ m'.m_timers ↔ y ∈ m.m_timers ∨ y = t ∧ (m.timer t).m_recurring = true) ∧
      m'.m_tickled = m.m_tickled ∧ m'.m_previouseTime = m.m_previouseTime := by
  cases hrec : (m.timer t).m_recurring with
  | true =>
    obtain ⟨hset, hheld⟩ := h.setNext List.mem_cons_self (now_ms + (m.timer t).m_ms)
    obtain ⟨hheld, hmem⟩ := hheld.insertSet
    refine ⟨_, by rw [fireOne, if_pos hrec, hset]; rfl, hheld, ?_, ?_, rfl, rfl⟩
    · simp only [firedTimer, hrec, if_true]
      rfl
    · intro y
      rw [hmem, put_m_timers]
      tauto
  | false =>
    refine ⟨_, by rw [fireOne, if_neg (by simp [hrec])], h.drop rfl, ?_, ?_, rfl, rfl⟩
    · simp [firedTimer, hrec]
    · intro y
      simp

theorem fire_spec {expired : List Nat} (h : Held m expired) (now_ms : UInt64) :
    ∃ m', fire now_ms expired m = .ok (m', expired.map fun t => (m.timer t).m_cb) ∧ Inv m' ∧
      (∀ a, m'.heap a =
        if a ∈ expired then some (firedTimer now_ms (m.timer a)) else m.heap a) ∧
      (∀ y, y ∈ m'.m_timers ↔
        y ∈ m.m_timers ∨ y ∈ expired ∧ (m.timer y).m_recurring = true) ∧
      m'.m_tickled = m.m_tickled ∧ m'.m_previouseTime = m.m_previouseTime := by
  induction expired generalizing m with
  | nil => exact ⟨m, rfl, h, by simp, by simp, rfl, rfl⟩
  | cons t expired ih =>
    obtain ⟨m₁, hone, hheld, hheap₁, hmem₁, htick₁, hprev₁⟩ := h.fireOne_spec now_ms
    obtain ⟨m', hfire, hinv, hheap, hmem, htick, hprev⟩ := ih hheld
    have hnot : t ∉ expired := (List.nodup_cons.mp h.nodup).1
    have htimer : ∀ a ∈ expired, m₁.timer a = m.timer a := by
      intro a ha
      rw [timer_congr hheap₁]
      exact timer_put_ne _ _ (ne_of_mem_of_not_mem ha hnot)
    refine ⟨m', ?_, hinv, ?_, ?_, htick.trans htick₁, hprev.trans hprev₁⟩
    · have hcbs : (expired.map fun t => (m₁.timer t).m_cb) =
          expired.map fun t => (m.timer t).m_cb :=
        List.map_congr_left fun a ha => by rw [htimer a ha]
      simp only [fire, bind, Except.bind, hone, hfire, hcbs, List.map_cons]
    · intro a
      rw [hheap, hheap₁]
      simp only [List.mem_cons, TimerManager.put]
      by_cases ha : a = t
      · subst ha
        simp [hnot]
      · by_cases hmema : a ∈ expired
        · simp [hmema, htimer a hmema]
        · simp [hmema, ha]
    · intro y
      rw [hmem, hmem₁, List.mem_cons]
      by_cases hy : y ∈ expired
      · rw [htimer y hy]
        have hyt : y ≠ t := ne_of_mem_of_not_mem hy hnot
        tauto
      · constructor
        · rintro ((hy' | ⟨rfl, hrec⟩) | ⟨hy', -⟩)
          · exact Or.inl hy'
          · exact Or.inr ⟨Or.inl rfl, hrec⟩
          · exact absurd hy' hy
        · rintro (hy' | ⟨rfl | hy', hrec⟩)
          · exact Or.inl (Or.inl hy')
          · exact Or.inl (Or.inr ⟨rfl, hrec⟩)
          · exact absurd hy' hy

end Held

/-! ## The part of the set that is due -/

theorem takeWhile_congr {α : Type} {p q : α → Bool} {l : List α} (h : ∀ y ∈ l, p y = q y) :
    l.takeWhile p = l.takeWhile q := by
  induction l with
  | nil => rfl
  | cons y l ih =>
    simp only [List.takeWhile_cons, h y List.mem_cons_self,
      ih fun z hz => h z (List.mem_cons_of_mem _ hz)]

/-- A search in two steps ends where a search in one step would: past the elements that come
before, then past the equal ones. -/
theorem takeWhile_length_add {α : Type} (before eq due : α → Bool) (l : List α)
    (hbefore : ∀ y ∈ l, before y = true → due y = true)
    (heq : ∀ y ∈ l, before y = false → eq y = due y)
    (hsorted : l.Pairwise fun a b => before b = true → before a = true) :
    (l.takeWhile before).length + ((l.drop (l.takeWhile before).length).takeWhile eq).length =
      (l.takeWhile due).length := by
  induction l with
  | nil => rfl
  | cons y l ih =>
    obtain ⟨hy, hl⟩ := List.pairwise_cons.mp hsorted
    cases hb : before y with
    | true =>
      have := ih (fun z hz => hbefore z (List.mem_cons_of_mem _ hz))
        (fun z hz => heq z (List.mem_cons_of_mem _ hz)) hl
      simp only [List.takeWhile_cons, hb, hbefore y List.mem_cons_self hb, if_true,
        List.length_cons, List.drop_succ_cons]
      omega
    | false =>
      have hall : ∀ z ∈ y :: l, eq z = due z := by
        intro z hz
        apply heq z hz
        rcases List.mem_cons.mp hz with rfl | hz'
        · exact hb
        · by_contra hbz
          rw [hy z hz' (by simpa using hbz)] at hb
          cases hb
      have htake : (y :: l).takeWhile before = [] := by simp [hb]
      rw [htake, List.length_nil, List.drop_zero, Nat.zero_add, takeWhile_congr hall]

theorem mem_takeWhile_iff {α : Type} {due : α → Bool} {l : List α}
    (hsorted : l.Pairwise fun a b => due b = true → due a = true) {y : α} :
    y ∈ l.takeWhile due ↔ y ∈ l ∧ due y = true := by
  induction l with
  | nil => simp
  | cons z l ih =>
    obtain ⟨hz, hl⟩ := List.pairwise_cons.mp hsorted
    cases hd : due z with
    | true =>
      simp only [List.takeWhile_cons, hd, if_true, List.mem_cons, ih hl]
      constructor
      · rintro (rfl | ⟨hy, hdy⟩)
        · exact ⟨Or.inl rfl, hd⟩
        · exact ⟨Or.inr hy, hdy⟩
      · rintro ⟨rfl | hy, hdy⟩
        · exact Or.inl rfl
        · exact Or.inr ⟨hy, hdy⟩
    | false =>
      simp only [List.takeWhile_cons, hd, Bool.false_eq_true, if_false, List.not_mem_nil,
        List.mem_cons, false_iff]
      rintro ⟨rfl | hy, hdy⟩
      · rw [hd] at hdy
        cases hdy
      · rw [hz y hy hdy] at hd
        cases hd

/-- The timers before the iterator at which `listExpiredCb` stops: those due, or all of them
after a rollover. -/
theorem take_expiredEnd {m : TimerManager φ ω} (hs : Sorted m.less m.m_timers) (now_ms : UInt64)
    (now_timer : Nat) (rollover : Bool) :
    m.m_timers.take (m.expiredEnd now_ms now_timer rollover) =
      m.m_timers.takeWhile fun t => rollover || decide ((m.timer t).m_next ≤ now_ms) := by
  cases rollover with
  | true =>
    have hend : m.expiredEnd now_ms now_timer true = m.m_timers.length := by
      simp [expiredEnd]
    have hall : (m.m_timers.takeWhile fun _ => true) = m.m_timers := by simp
    simp [hend, hall]
  | false =>
    have hbefore : ∀ t, Timer.Comparator (some (t, m.timer t))
        (some (now_timer, { m_next := now_ms })) = true ↔
        (m.timer t).m_next.toNat < now_ms.toNat ∨
          (m.timer t).m_next.toNat = now_ms.toNat ∧ t < now_timer := by
      intro t
      simp only [Timer.Comparator, UInt64.lt_iff_toNat_lt]
      split
      · simp [*]
      · split
        · simp
          omega
        · simp
          omega
    have hlen := takeWhile_length_add
      (fun t => Timer.Comparator (some (t, m.timer t)) (some (now_timer, { m_next := now_ms })))
      (fun t => decide ((m.timer t).m_next = now_ms))
      (fun t => decide ((m.timer t).m_next ≤ now_ms)) m.m_timers ?_ ?_ ?_
    · have hend : m.expiredEnd now_ms now_timer false = (m.m_timers.takeWhile
          fun t => decide ((m.timer t).m_next ≤ now_ms)).length := hlen
      rw [hend]
      simp only [Bool.false_or]
      exact (List.prefix_iff_eq_take.mp (List.takeWhile_prefix _)).symm
    · intro t _ ht
      rw [hbefore] at ht
      rw [decide_eq_true_eq, UInt64.le_iff_toNat_le]
      omega
    · intro t _ ht
      rw [← Bool.not_eq_true, hbefore] at ht
      rw [Bool.eq_iff_iff, decide_eq_true_eq, decide_eq_true_eq, UInt64.le_iff_toNat_le,
        ← UInt64.toNat_inj]
      omega
    · apply hs.imp
      intro a b hab
      rw [less_iff] at hab
      rw [hbefore, hbefore]
      omega

/-! ## The pass -/

/-- Taking a prefix out of the set. -/
theorem Held.take {m : TimerManager φ ω} (h : Inv m) (n : Nat) :
    Held { m with m_timers := m.m_timers.drop n } (m.m_timers.take n) := by
  have hnodup : (m.m_timers.take n ++ m.m_timers.drop n).Nodup := by
    rw [List.take_append_drop]
    exact h.sorted.nodup m.strictTotal_less
  have hdisj := List.disjoint_of_nodup_append hnodup
  have hsplit : ∀ t, t ∈ m.m_timers ↔ t ∈ m.m_timers.drop n ∨ t ∈ m.m_timers.take n := by
    intro t
    rw [← List.mem_append.trans or_comm, List.take_append_drop]
  refine ⟨?_, fun t hcb => (hsplit t).mp (h.mem_of_isSome hcb),
    fun t ht => h.isSome_of_mem ((hsplit t).mpr ht), fun t ht hd => hdisj ht hd,
    hnodup.of_append_left⟩
  have hless : (less { m with m_timers := m.m_timers.drop n } : Nat → Nat → Bool) = m.less := rfl
  rw [hless]
  exact h.sorted.sublist (List.drop_sublist _ _)

/-- What an expiry pass leaves, given the timers it took out of the set. -/
structure Expired (m m' : TimerManager φ ω) (now_ms : UInt64) (expired : List Nat) : Prop where
  inv : Inv m'
  pre : expired <+: m.m_timers
  due : ∀ t ∈ m.m_timers, t ∈ expired ↔
    (m.detectClockRollover now_ms).2 = true ∨ (m.timer t).m_next ≤ now_ms
  heap : ∀ a, m'.heap a =
    if a ∈ expired then some (firedTimer now_ms (m.timer a)) else m.heap a
  mem_iff : ∀ y, y ∈ m'.m_timers ↔
    y ∈ m.m_timers ∧ (y ∈ expired → (m.timer y).m_recurring = true)
  tickled : m'.m_tickled = m.m_tickled
  previouse : m'.m_previouseTime = now_ms

theorem Held.expireDue_spec {m : TimerManager φ ω} (h : Inv m) (now_ms : UInt64)
    (now_timer : Nat) (rollover : Bool) :
    ∃ m' expired, m.expireDue now_ms now_timer rollover =
      .ok (m', expired, expired.map fun t => (m.timer t).m_cb) ∧ Inv m' ∧
      expired = (m.m_timers.takeWhile fun t => rollover || decide ((m.timer t).m_next ≤ now_ms)) ∧
      (∀ a, m'.heap a =
        if a ∈ expired then some (firedTimer now_ms (m.timer a)) else m.heap a) ∧
      (∀ y, y ∈ m'.m_timers ↔
        y ∈ m.m_timers ∧ (y ∈ expired → (m.timer y).m_recurring = true)) ∧
      m'.m_tickled = m.m_tickled ∧ m'.m_previouseTime = m.m_previouseTime := by
  have hheld := h.take (m.expiredEnd now_ms now_timer rollover)
  obtain ⟨m', hfire, hinv, hheap, hmem, htick, hprev⟩ := hheld.fire_spec now_ms
  refine ⟨m', m.m_timers.take (m.expiredEnd now_ms now_timer rollover), ?_, hinv,
    take_expiredEnd h.sorted now_ms now_timer rollover, hheap, ?_, htick, hprev⟩
  · simp only [expireDue, hfire, bind, Except.bind]
    rfl
  · intro y
    have hsplit : y ∈ m.m_timers ↔ y ∈ m.m_timers.take (m.expiredEnd now_ms now_timer rollover) ∨
        y ∈ m.m_timers.drop (m.expiredEnd now_ms now_timer rollover) := by
      rw [← List.mem_append, List.take_append_drop]
    have hapart := hheld.apart y
    rw [hmem, hsplit]
    change y ∈ m.m_timers.drop _ ∨ y ∈ m.m_timers.take _ ∧ (m.timer y).m_recurring = true ↔ _
    tauto

theorem Held.expirePass_spec {m : TimerManager φ ω} (h : Inv m) (now_ms : UInt64)
    (now_timer : Nat) (hne : (m.detectClockRollover now_ms).2 = true ∨ m.m_timers ≠ []) :
    ∃ m' expired, m.expirePass now_ms now_timer =
      .ok (m', expired, expired.map fun t => (m.timer t).m_cb) ∧
      Expired m m' now_ms expired := by
  -- the state after `detectClockRollover` has the same heap and the same set
  have hinv : Inv { m with m_previouseTime := now_ms } := h.congr rfl rfl
  have hdet : m.detectClockRollover now_ms =
    ({ m with m_previouseTime := now_ms }, (m.detectClockRollover now_ms).2) := rfl
  generalize hroll : (m.detectClockRollover now_ms).2 = rollover at hne hdet
  obtain ⟨m', expired, hrun, hinv', hexp, hheap, hmem, htick, hprev⟩ :=
    hinv.expireDue_spec now_ms now_timer rollover
  change expired = m.m_timers.takeWhile fun t =>
    rollover || decide ((m.timer t).m_next ≤ now_ms) at hexp
  change _ = Except.ok (m', expired, expired.map fun t => (m.timer t).m_cb) at hrun
  have hsorted : m.m_timers.Pairwise fun a b =>
      (rollover || decide ((m.timer b).m_next ≤ now_ms)) = true →
        (rollover || decide ((m.timer a).m_next ≤ now_ms)) = true := by
    apply h.sorted.imp
    intro a b hab
    rw [less_iff] at hab
    simp only [Bool.or_eq_true, decide_eq_true_eq, UInt64.le_iff_toNat_le]
    rintro (hr | hb)
    · exact Or.inl hr
    · exact Or.inr (by omega)
  have hdue : ∀ t ∈ m.m_timers, t ∈ expired ↔
      (m.detectClockRollover now_ms).2 = true ∨ (m.timer t).m_next ≤ now_ms := by
    intro t ht
    rw [hexp, mem_takeWhile_iff hsorted, hroll]
    simp [ht]
  have hpass : Expired m m' now_ms expired :=
    ⟨hinv', hexp ▸ List.takeWhile_prefix _, hdue, hheap, hmem, htick, hprev⟩
  cases rollover with
  | true => exact ⟨m', expired, by rw [expirePass, hdet]; exact hrun, hpass⟩
  | false =>
    obtain ⟨first, ts, hts⟩ := List.exists_cons_of_ne_nil (hne.resolve_left (by simp))
    have hbegin : beginAfter { m with m_previouseTime := now_ms } now_ms =
        .ok (decide ((m.timer first).m_next > now_ms)) := by
      simp only [beginAfter, hts]
      rfl
    by_cases hlate : (m.timer first).m_next > now_ms
    · -- nothing is due: the pass would have taken nothing out
      have hnone : expired = [] := by
        rw [hexp, hts, List.takeWhile_cons_of_neg]
        simpa using hlate
      refine ⟨{ m with m_previouseTime := now_ms }, [], ?_, hinv, List.nil_prefix, ?_,
        by simp, ?_, rfl, rfl⟩
      · rw [expirePass, hdet]
        simp only [hbegin, hlate, bind, Except.bind, decide_true]
        rfl
      · rwa [hnone] at hdue
      · simp
    · refine ⟨m', expired, ?_, hpass⟩
      rw [expirePass, hdet]
      simp only [hbegin, hlate, bind, Except.bind, decide_false]
      exact hrun

/-- The pass dereferences the end exactly when the set is empty and no rollover is detected. -/
theorem Held.expirePass_derefEnd {m : TimerManager φ ω} (h : Inv m) (now_ms : UInt64)
    (now_timer : Nat) : m.expirePass now_ms now_timer = .error .derefEnd ↔
      (m.detectClockRollover now_ms).2 = false ∧ m.m_timers = [] := by
  constructor
  · intro hrun
    by_contra hne
    obtain ⟨m', expired, hok, -⟩ := h.expirePass_spec now_ms now_timer (by
      rw [← Bool.not_eq_false]
      tauto)
    rw [hok] at hrun
    cases hrun
  · rintro ⟨hroll, hempty⟩
    have hdet : m.detectClockRollover now_ms = ({ m with m_previouseTime := now_ms }, false) := by
      rw [← hroll]
      rfl
    rw [expirePass, hdet]
    simp only [Bool.false_eq_true, if_false, beginAfter, hempty]
    rfl

theorem Held.cbs_of_expirePass {m m' : TimerManager φ ω} (h : Inv m) {now_ms : UInt64}
    {now_timer : Nat} {expired : List Nat} {cbs : List (Option (Callback φ ω))}
    (hrun : m.expirePass now_ms now_timer = .ok (m', expired, cbs)) :
    cbs = (expired.map fun t => (m.timer t).m_cb) ∧ Expired m m' now_ms expired := by
  by_cases hend : (m.detectClockRollover now_ms).2 = false ∧ m.m_timers = []
  · rw [(h.expirePass_derefEnd now_ms now_timer).mpr hend] at hrun
    cases hrun
  · obtain ⟨m₁, expired₁, hok, hspec⟩ := h.expirePass_spec now_ms now_timer (by
      rw [← Bool.not_eq_false]
      tauto)
    rw [hok] at hrun
    cases hrun
    exact ⟨rfl, hspec⟩

theorem Held.of_expirePass {m m' : TimerManager φ ω} (h : Inv m) {now_ms : UInt64}
    {now_timer : Nat} {expired : List Nat} {cbs : List (Option (Callback φ ω))}
    (hrun : m.expirePass now_ms now_timer = .ok (m', expired, cbs)) :
    Expired m m' now_ms expired := (h.cbs_of_expirePass hrun).2

/-! ## The whole call -/

/-- What `listExpiredCb` does with the timers `expired` that it takes out of the set: those due,
or all of them after a clock rollover, each once and in the order of the set. The recurring ones
are back in the set at the end of another period, the others are out of it for good. -/
structure Fires (m m' : TimerManager φ ω) (now_ms : UInt64) (expired : List Nat) : Prop where
  due : (m.detectClockRollover now_ms).2 = false →
    ∀ t, t ∈ expired ↔ t ∈ m.m_timers ∧ (m.timer t).m_next ≤ now_ms
  all : (m.detectClockRollover now_ms).2 = true → ∀ t, t ∈ expired ↔ t ∈ m.m_timers
  nodup : expired.Nodup
  sorted : expired.Pairwise fun a b =>
    (m.timer a).m_next < (m.timer b).m_next ∨ (m.timer a).m_next = (m.timer b).m_next ∧ a < b
  again : ∀ t ∈ expired, (m.timer t).m_recurring = true → t ∈ m'.m_timers ∧
    m'.timer t = { m.timer t with m_next := now_ms + (m.timer t).m_ms }
  ended : ∀ t ∈ expired, (m.timer t).m_recurring = false → t ∉ m'.m_timers ∧
    m'.timer t = { m.timer t with m_cb := none }
  others : ∀ t, t ∉ expired → m'.heap t = m.heap t ∧ (t ∈ m'.m_timers ↔ t ∈ m.m_timers)
  inv : Inv m'

theorem timer_expired {m m' : TimerManager φ ω} {now_ms : UInt64} {expired : List Nat}
    (hpass : Expired m m' now_ms expired) (t : Nat) :
    m'.timer t = if t ∈ expired then firedTimer now_ms (m.timer t) else m.timer t := by
  simp only [timer, hpass.heap]
  split <;> rfl

theorem Expired.fires {m m' : TimerManager φ ω} (h : Inv m) {now_ms : UInt64}
    {expired : List Nat} (hpass : Expired m m' now_ms expired) : Fires m m' now_ms expired := by
  have hmem : ∀ t ∈ expired, t ∈ m.m_timers := fun t ht => hpass.pre.subset ht
  have hsorted : Sorted m.less expired := h.sorted.sublist hpass.pre.sublist
  refine ⟨?_, ?_, hsorted.nodup m.strictTotal_less, ?_, ?_, ?_, ?_, hpass.inv⟩
  · intro hroll t
    constructor
    · intro ht
      have hdue := (hpass.due t (hmem t ht)).mp ht
      rw [hroll] at hdue
      exact ⟨hmem t ht, hdue.resolve_left Bool.false_ne_true⟩
    · rintro ⟨ht, hnext⟩
      exact (hpass.due t ht).mpr (Or.inr hnext)
  · intro hroll t
    exact ⟨hmem t, fun ht => (hpass.due t ht).mpr (Or.inl hroll)⟩
  · apply hsorted.imp
    intro a b hab
    rw [less_iff] at hab
    rwa [UInt64.lt_iff_toNat_lt, ← UInt64.toNat_inj]
  · intro t ht hrec
    refine ⟨(hpass.mem_iff t).mpr ⟨hmem t ht, fun _ => hrec⟩, ?_⟩
    rw [timer_expired hpass, if_pos ht, firedTimer, if_pos hrec]
  · intro t ht hrec
    constructor
    · intro ht'
      have hrec' := ((hpass.mem_iff t).mp ht').2 ht
      rw [hrec] at hrec'
      cases hrec'
    · rw [timer_expired hpass, if_pos ht, firedTimer, if_neg (by simp [hrec])]
  · intro t ht
    constructor
    · rw [hpass.heap, if_neg ht]
    · rw [hpass.mem_iff]
      exact ⟨And.left, fun ht' => ⟨ht', fun hexp => absurd hexp ht⟩⟩

/-- **Expiry.** For every non-empty set in order, every time and every address of the timer it is
compared with, `listExpiredCb` returns the callbacks of the timers that it fires, in their
order. -/
theorem listExpiredCb_fires {m : TimerManager φ ω} (h : Inv m) (hne : m.m_timers ≠ [])
    (now_ms : UInt64) (now_timer : Nat) :
    ∃ m' expired, m.listExpiredCb now_ms now_timer =
      .ok (m', expired, expired.map fun t => (m.timer t).m_cb) ∧
      Fires m m' now_ms expired := by
  obtain ⟨m', expired, hrun, hpass⟩ := h.expirePass_spec now_ms now_timer (Or.inr hne)
  refine ⟨m', expired, ?_, hpass.fires h⟩
  simp only [listExpiredCb, isEmpty, List.isEmpty_iff, hne, if_false, hrun]

/-- A recurring timer and one that fires once, due at the same time. -/
theorem listExpiredCb_fires_two : ∃ m : TimerManager Nat Nat, Inv m ∧ m.m_timers = [3, 7] ∧
    ∃ m' expired, m.listExpiredCb 110 5 =
      .ok (m', expired, expired.map fun t => (m.timer t).m_cb) ∧ Fires m m' 110 expired := by
  obtain ⟨m₁, b₁, hrun₁, h₁, hheap₁, -⟩ := (inv_new 0).addTimer_spec (t := 7) rfl 10
    (some (.plain 0 : Callback Nat Nat)) true 100
  obtain ⟨m₂, b₂, hrun₂, h₂, -⟩ := h₁.addTimer_spec (t := 3) (by rw [hheap₁]; rfl) 5
    (some (.plain 1)) false 105
  have hm₁ : m₁ = ((new 0).addTimer 7 10 (some (.plain 0)) true 100).1 := by rw [hrun₁]
  have hm₂ : m₂ = (m₁.addTimer 3 5 (some (.plain 1)) false 105).1 := by rw [hrun₂]
  have hset : m₂.m_timers = [3, 7] := by
    rw [hm₂, hm₁]
    rfl
  exact ⟨m₂, h₂, hset, listExpiredCb_fires h₂ (by simp [hset]) 110 5⟩

end Captain.TimerManager
