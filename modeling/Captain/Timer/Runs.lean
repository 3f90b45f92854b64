import Captain.Timer.Expire
import Captain.Transition

/-!
# The timer set over whole runs

A run is a sequence of calls on one `TimerManager` and its timers, made one after the other, with
any clock readings. Addresses stand for timers, so a new timer gets an address that no timer had
before. `armed` records, beside the manager, when each timer was last armed.

* `set_invariant`: after every run the set is in order, no call can go wrong (no end iterator is
  erased or dereferenced, and no timer changes its deadline inside the set), and a timer that
  was cancelled, or fired without being recurring, is out for good.
-/

namespace Captain.TimerManager

open OrderedSet Transition

variable {φ ω : Type}

inductive Call (φ ω : Type)
  | addTimer (t : Nat) (ms : UInt64) (cb : φ) (recurring : Bool) (now : UInt64)
  | addConditionTimer (t : Nat) (ms : UInt64) (cb : Option φ) (weak_cond : ω) (recurring : Bool)
      (now : UInt64)
  | cancel (t : Nat)
  | refresh (t : Nat) (now : UInt64)
  | reset (t : Nat) (ms : UInt64) (from_now : Bool) (now : UInt64)
  | listExpiredCb (now_ms : UInt64) (now_timer : Nat)

inductive Ret (φ ω : Type)
  | timer (t : Nat)
  | result (b : Bool)
  | callbacks (expired : List Nat) (cbs : List (Option (Callback φ ω)))

/-- The timers a call took out as expired. -/
def Ret.expired : Ret φ ω → List Nat
  | .callbacks expired _ => expired
  | _ => []

def call (m : TimerManager φ ω) : Call φ ω → Except TimerFault (TimerManager φ ω × Ret φ ω)
  | .addTimer t ms cb recurring now =>
    .ok ((m.addTimer t ms (some (.plain cb)) recurring now).1, .timer t)
  | .addConditionTimer t ms cb weak_cond recurring now =>
    .ok ((m.addConditionTimer t ms cb weak_cond recurring now).1, .timer t)
  | .cancel t => do
    let (m, b) ← m.cancel t
    .ok (m, .result b)
  | .refresh t now => do
    let (m, b) ← m.refresh t now
    .ok (m, .result b)
  | .reset t ms from_now now => do
    let (m, b, _) ← m.reset t ms from_now now
    .ok (m, .result b)
  | .listExpiredCb now_ms now_timer => do
    let (m, expired, cbs) ← m.listExpiredCb now_ms now_timer
    .ok (m, .callbacks expired cbs)

/-- A new timer has an address of its own; the other calls are made on existing timers. -/
def Legal (m : TimerManager φ ω) : Call φ ω → Prop
  | .addTimer t .. => m.heap t = none
  | .addConditionTimer t .. => m.heap t = none
  | .cancel t => (m.heap t).isSome
  | .refresh t _ => (m.heap t).isSome
  | .reset t .. => (m.heap t).isSome
  | .listExpiredCb .. => True

/-- The arming times after a call that returned `r`. -/
def armedBy (m : TimerManager φ ω) (armed : Nat → UInt64) : Call φ ω → Ret φ ω → Nat → UInt64
  | .addTimer t _ _ _ now, _ => fun a => if a = t then now else armed a
  | .addConditionTimer t _ _ _ _ now, _ => fun a => if a = t then now else armed a
  | .refresh t now, .result true => fun a => if a = t then now else armed a
  | .reset t _ true now, .result true => fun a => if a = t then now else armed a
  | .listExpiredCb now_ms _, r => fun a =>
    if a ∈ r.expired ∧ (m.timer a).m_recurring = true then now_ms else armed a
  | _, _ => armed

structure Traced (φ ω : Type) where
  mgr : TimerManager φ ω
  armed : Nat → UInt64

def start (now : UInt64) : Traced φ ω := ⟨new now, fun _ => 0⟩

/-- A legal call and what it returns. -/
def Step (s : Traced φ ω) (l : Call φ ω × Ret φ ω) (s' : Traced φ ω) : Prop :=
  Legal s.mgr l.1 ∧ s.mgr.call l.1 = .ok (s'.mgr, l.2) ∧
    s'.armed = armedBy s.mgr s.armed l.1 l.2

/-- The call ends the timer: it cancels it, or fires it while it is not recurring. -/
def Ends (m : TimerManager φ ω) (t : Nat) : Call φ ω × Ret φ ω → Prop
  | (.cancel t', .result true) => t' = t
  | (.listExpiredCb .., .callbacks expired _) => t ∈ expired ∧ (m.timer t).m_recurring = false
  | _ => False

/-- The representation invariant of the set. -/
structure Rep (s : Traced φ ω) : Prop where
  sorted : s.mgr.m_timers.Pairwise fun a b =>
    (s.mgr.timer a).m_next < (s.mgr.timer b).m_next ∨
      (s.mgr.timer a).m_next = (s.mgr.timer b).m_next ∧ a < b
  nodup : s.mgr.m_timers.Nodup
  cb_iff : ∀ t, (s.mgr.timer t).m_cb.isSome ↔ t ∈ s.mgr.m_timers
  next_eq : ∀ t ∈ s.mgr.m_timers, (s.mgr.timer t).m_next = s.armed t + (s.mgr.timer t).m_ms

/-- An existing timer without a callback. -/
def Dead (m : TimerManager φ ω) (t : Nat) : Prop :=
  (m.heap t).isSome ∧ (m.timer t).m_cb = none

/-- The invariant the induction carries. -/
structure Good (s : Traced φ ω) : Prop where
  inv : Inv s.mgr
  cb_of_mem : ∀ t ∈ s.mgr.m_timers, (s.mgr.timer t).m_cb.isSome
  next_eq : ∀ t ∈ s.mgr.m_timers, (s.mgr.timer t).m_next = s.armed t + (s.mgr.timer t).m_ms

theorem Good.rep {s : Traced φ ω} (h : Good s) : Rep s where
  sorted := by
    apply h.inv.sorted.imp
    intro a b hab
    rw [less_iff] at hab
    rwa [UInt64.lt_iff_toNat_lt, ← UInt64.toNat_inj]
  nodup := h.inv.sorted.nodup s.mgr.strictTotal_less
  cb_iff t := ⟨h.inv.mem_of_isSome, h.cb_of_mem t⟩
  next_eq := h.next_eq

theorem good_start (now : UInt64) : Good (start now : Traced φ ω) where
  inv := inv_new now
  cb_of_mem t ht := by cases ht
  next_eq t ht := by cases ht

/-- What one legal call does to a set in order. -/
structure CallSpec (s : Traced φ ω) (c : Call φ ω) (m' : TimerManager φ ω) (r : Ret φ ω) :
    Prop where
  run : s.mgr.call c = .ok (m', r)
  good : Good ⟨m', armedBy s.mgr s.armed c r⟩
  dead : ∀ t, Dead s.mgr t → Dead m' t ∧ t ∉ r.expired
  ends : ∀ t, Ends s.mgr t (c, r) → Dead m' t
  cbs : ∀ expired cbs, r = .callbacks expired cbs →
    cbs = (expired.map fun t => (s.mgr.timer t).m_cb) ∧ ∀ t ∈ expired, t ∈ s.mgr.m_timers

/-! ## One call -/

theorem Dead.not_mem {s : Traced φ ω} (h : Good s) {t : Nat} (hd : Dead s.mgr t) :
    t ∉ s.mgr.m_timers := by
  intro ht
  have hcb := h.cb_of_mem t ht
  simp [hd.2] at hcb

theorem Dead.put {m m' : TimerManager φ ω} {t a : Nat} {v : Timer φ ω} (hd : Dead m a)
    (hheap : m'.heap = (m.put t v).heap) (hne : a ≠ t) : Dead m' a := by
  refine ⟨?_, by rw [timer_congr hheap, timer_put_ne _ _ hne, hd.2]⟩
  rw [hheap]
  simp only [TimerManager.put, if_neg hne, hd.1]

/-- A call that writes one timer of the set, or a new one, and returns no timers. -/
theorem CallSpec.of_put {s : Traced φ ω} (h : Good s) {c : Call φ ω} {t : Nat} {v : Timer φ ω}
    {m' : TimerManager φ ω} {r : Ret φ ω} (hrun : s.mgr.call c = .ok (m', r)) (hinv : Inv m')
    (hheap : m'.heap = (s.mgr.put t v).heap)
    (hmem : ∀ y, y ∈ m'.m_timers → y = t ∨ y ∈ s.mgr.m_timers) (ht : ¬Dead s.mgr t)
    (hret : r.expired = [] ∧ ∀ expired cbs, r ≠ .callbacks expired cbs)
    (harmed : ∀ a, a ≠ t → armedBy s.mgr s.armed c r a = s.armed a)
    (hv : t ∈ m'.m_timers →
      v.m_cb.isSome ∧ v.m_next = armedBy s.mgr s.armed c r t + v.m_ms)
    (hends : ∀ a, Ends s.mgr a (c, r) → a = t ∧ v.m_cb = none) :
    CallSpec s c m' r where
  run := hrun
  good := by
    refine ⟨hinv, fun a ha => ?_, fun a ha => ?_⟩
    · rw [timer_congr hheap]
      by_cases hat : a = t
      · subst hat
        rw [timer_put_self]
        exact (hv ha).1
      · rw [timer_put_ne _ _ hat]
        exact h.cb_of_mem a ((hmem a ha).resolve_left hat)
    · change (m'.timer a).m_next = armedBy s.mgr s.armed c r a + (m'.timer a).m_ms
      rw [timer_congr hheap]
      by_cases hat : a = t
      · subst hat
        rw [timer_put_self]
        exact (hv ha).2
      · rw [timer_put_ne _ _ hat, harmed a hat]
        exact h.next_eq a ((hmem a ha).resolve_left hat)
  dead a hd := by
    rw [hret.1]
    refine ⟨hd.put hheap ?_, List.not_mem_nil⟩
    rintro rfl
    exact ht hd
  ends a he := by
    obtain ⟨rfl, hcb⟩ := hends a he
    refine ⟨?_, by rw [timer_congr hheap, timer_put_self, hcb]⟩
    rw [hheap]
    simp [TimerManager.put]
  cbs expired cbs he := absurd he (hret.2 expired cbs)

/-- A call that changes nothing. -/
theorem CallSpec.of_same {s : Traced φ ω} (h : Good s) {c : Call φ ω} {b : Bool}
    (hrun : s.mgr.call c = .ok (s.mgr, .result b))
    (harmed : armedBy s.mgr s.armed c (.result b) = s.armed)
    (hends : ∀ a, ¬Ends s.mgr a (c, .result b)) : CallSpec s c s.mgr (.result b) where
  run := hrun
  good := by
    rw [harmed]
    exact h
  dead _ hd := ⟨hd, List.not_mem_nil⟩
  ends a he := absurd he (hends a)
  cbs _ _ he := by cases he

theorem addTimer_callSpec {s : Traced φ ω} (h : Good s) {t : Nat} (ht : s.mgr.heap t = none)
    {c : Call φ ω} {ms : UInt64} {cb : Callback φ ω} {recurring : Bool} {now : UInt64}
    (hc : s.mgr.call c = .ok ((s.mgr.addTimer t ms (some cb) recurring now).1, .timer t))
    (harmed : armedBy s.mgr s.armed c (.timer t) = fun a => if a = t then now else s.armed a)
    (hends : ∀ a, ¬Ends s.mgr a (c, .timer t)) : ∃ m' r, CallSpec s c m' r := by
  obtain ⟨m', at_front, hrun, hinv, hheap, hmem, -⟩ :=
    h.inv.addTimer_spec ht ms (some cb) recurring now
  rw [hrun] at hc
  refine ⟨m', .timer t, .of_put h hc hinv hheap (fun y hy => (hmem y).mp hy) ?_ ?_ ?_ ?_ ?_⟩
  · rintro ⟨hsome, -⟩
    simp [ht] at hsome
  · exact ⟨rfl, fun _ _ he => by cases he⟩
  · intro a ha
    rw [harmed]
    exact if_neg ha
  · intro _
    rw [harmed]
    simp
  · intro a he
    exact absurd he (hends a)

theorem cancel_callSpec {s : Traced φ ω} (h : Good s) (t : Nat) :
    ∃ m' r, CallSpec s (.cancel t) m' r := by
  by_cases hcb : (s.mgr.timer t).m_cb.isSome
  · obtain ⟨m', hrun, hinv, hheap, hmem, -⟩ := h.inv.cancel_of_isSome hcb
    refine ⟨m', .result true, .of_put h ?_ hinv hheap (fun y hy => Or.inr ((hmem y).mp hy).1)
      (fun hd => by simp [hd.2] at hcb) ?_ ?_ ?_ ?_⟩
    · simp only [call, hrun, bind, Except.bind]
    · exact ⟨rfl, fun _ _ he => by cases he⟩
    · intro a _
      rfl
    · intro hmem'
      exact absurd rfl ((hmem t).mp hmem').2
    · rintro a rfl
      exact ⟨rfl, rfl⟩
  · refine ⟨s.mgr, .result false, .of_same h ?_ rfl fun a he => he⟩
    simp only [call, cancel_of_isNone (by simpa using hcb), bind, Except.bind]

theorem refresh_callSpec {s : Traced φ ω} (h : Good s) (t : Nat) (now : UInt64) :
    ∃ m' r, CallSpec s (.refresh t now) m' r := by
  by_cases hcb : (s.mgr.timer t).m_cb.isSome
  · obtain ⟨m', hrun, hinv, hheap, hmem, -⟩ := h.inv.refresh_of_isSome hcb now
    refine ⟨m', .result true, .of_put h ?_ hinv hheap (fun y hy => Or.inr ((hmem y).mp hy))
      (fun hd => by simp [hd.2] at hcb) ?_ ?_ ?_ fun a he => he.elim⟩
    · simp only [call, hrun, bind, Except.bind]
    · exact ⟨rfl, fun _ _ he => by cases he⟩
    · intro a ha
      exact if_neg ha
    · intro _
      exact ⟨hcb, by simp [armedBy]⟩
  · refine ⟨s.mgr, .result false, .of_same h ?_ rfl fun a he => he⟩
    simp only [call, refresh_of_isNone (by simpa using hcb), bind, Except.bind]

theorem reset_callSpec {s : Traced φ ω} (h : Good s) (t : Nat) (ms : UInt64) (from_now : Bool)
    (now : UInt64) : ∃ m' r, CallSpec s (.reset t ms from_now now) m' r := by
  by_cases hsame : ms = (s.mgr.timer t).m_ms ∧ from_now = false
  · obtain ⟨hms, rfl⟩ := hsame
    refine ⟨s.mgr, .result true, .of_same h ?_ rfl fun a he => he⟩
    simp only [call, hms, reset_same, bind, Except.bind]
  by_cases hcb : (s.mgr.timer t).m_cb.isSome
  · obtain ⟨m', at_front, hrun, hinv, hheap, hmem, -⟩ := h.inv.reset_of_isSome hcb hsame now
    refine ⟨m', .result true, .of_put h ?_ hinv hheap (fun y hy => Or.inr ((hmem y).mp hy))
      (fun hd => by simp [hd.2] at hcb) ?_ ?_ ?_ fun a he => he.elim⟩
    · simp only [call, hrun, bind, Except.bind]
    · exact ⟨rfl, fun _ _ he => by cases he⟩
    · intro a ha
      cases from_now with
      | true => exact if_neg ha
      | false => rfl
    · intro _
      refine ⟨hcb, ?_⟩
      cases from_now with
      | true => simp [armedBy, resetTimer]
      | false =>
        -- the start of the period is the time the timer was last armed
        simp only [armedBy, resetTimer, h.next_eq t (h.inv.mem_of_isSome hcb),
          Bool.false_eq_true, if_false]
        rw [UInt64.add_sub_cancel]
  · refine ⟨s.mgr, .result false, .of_same h ?_ ?_ fun a he => he⟩
    · simp only [call, reset_of_isNone (by simpa using hcb) hsame, bind, Except.bind]
    · cases from_now <;> rfl

theorem listExpiredCb_callSpec {s : Traced φ ω} (h : Good s) (now_ms : UInt64) (now_timer : Nat) :
    ∃ m' r, CallSpec s (.listExpiredCb now_ms now_timer) m' r := by
  by_cases hempty : s.mgr.m_timers = []
  · refine ⟨s.mgr, .callbacks [] [], ?_, ?_, fun a hd => ⟨hd, List.not_mem_nil⟩, ?_, ?_⟩
    · simp only [call, listExpiredCb, isEmpty, hempty, bind, Except.bind]
      rfl
    · simpa [armedBy, Ret.expired] using h
    · rintro a ⟨ha, -⟩
      cases ha
    · intro expired cbs he
      cases he
      exact ⟨rfl, by simp⟩
  obtain ⟨m', expired, hrun, hpass⟩ := h.inv.expirePass_spec now_ms now_timer (Or.inr hempty)
  have hmem : ∀ t ∈ expired, t ∈ s.mgr.m_timers := fun t ht => hpass.pre.subset ht
  have htimer : ∀ a, m'.timer a =
      if a ∈ expired then firedTimer now_ms (s.mgr.timer a) else s.mgr.timer a := by
    intro a
    simp only [timer, hpass.heap]
    split <;> rfl
  have hsome : ∀ a, (s.mgr.heap a).isSome → (m'.heap a).isSome := by
    intro a ha
    rw [hpass.heap]
    split
    · rfl
    · exact ha
  refine ⟨m', .callbacks expired (expired.map fun t => (s.mgr.timer t).m_cb), ?_,
    ⟨hpass.inv, ?_, ?_⟩, ?_, ?_, ?_⟩
  · simp only [call, listExpiredCb, isEmpty, List.isEmpty_iff, hempty, if_false, hrun, bind,
      Except.bind]
  · intro t ht
    obtain ⟨hold, hrec⟩ := (hpass.mem_iff t).mp ht
    change (m'.timer t).m_cb.isSome
    rw [htimer]
    by_cases hexp : t ∈ expired
    · rw [if_pos hexp, firedTimer, if_pos (hrec hexp)]
      exact h.cb_of_mem t hold
    · rw [if_neg hexp]
      exact h.cb_of_mem t hold
  · intro t ht
    obtain ⟨hold, hrec⟩ := (hpass.mem_iff t).mp ht
    change (m'.timer t).m_next = (if t ∈ expired ∧ (s.mgr.timer t).m_recurring = true
      then now_ms else s.armed t) + (m'.timer t).m_ms
    rw [htimer]
    by_cases hexp : t ∈ expired
    · rw [if_pos hexp, if_pos ⟨hexp, hrec hexp⟩, firedTimer, if_pos (hrec hexp)]
    · rw [if_neg hexp, if_neg fun hc => hexp hc.1]
      exact h.next_eq t hold
  · intro t hd
    have hnot : t ∉ expired := fun ht => hd.not_mem h (hmem t ht)
    exact ⟨⟨hsome t hd.1, by rw [htimer, if_neg hnot, hd.2]⟩, hnot⟩
  · rintro t ⟨ht, hrec⟩
    refine ⟨?_, by rw [htimer, if_pos ht, firedTimer, hrec]; rfl⟩
    rw [hpass.heap, if_pos ht]
    rfl
  · intro expired' cbs he
    cases he
    exact ⟨rfl, hmem⟩

/-- **Call lemma.** A legal call on a set in order goes through and leaves the set in order. -/
theorem call_spec {s : Traced φ ω} (h : Good s) {c : Call φ ω} (hlegal : Legal s.mgr c) :
    ∃ m' r, CallSpec s c m' r := by
  cases c with
  | addTimer t ms cb recurring now =>
    exact addTimer_callSpec h hlegal rfl rfl fun a he => he
  | addConditionTimer t ms cb weak_cond recurring now =>
    exact addTimer_callSpec h hlegal rfl rfl fun a he => he
  | cancel t => exact cancel_callSpec h t
  | refresh t now => exact refresh_callSpec h t now
  | reset t ms from_now now => exact reset_callSpec h t ms from_now now
  | listExpiredCb now_ms now_timer => exact listExpiredCb_callSpec h now_ms now_timer

/-! ## Runs -/

theorem Step.callSpec {s s' : Traced φ ω} {l : Call φ ω × Ret φ ω} (h : Good s)
    (hstep : Step s l s') : CallSpec s l.1 s'.mgr l.2 ∧ Good s' := by
  obtain ⟨hlegal, hrun, harmed⟩ := hstep
  obtain ⟨m', r, hspec⟩ := call_spec h hlegal
  have heq : (s'.mgr, l.2) = (m', r) := Except.ok.inj (hrun.symm.trans hspec.run)
  obtain ⟨hm, hr⟩ := Prod.mk.inj heq
  have hs' : s' = ⟨m', armedBy s.mgr s.armed l.1 r⟩ := by
    rw [← hm, ← hr, ← harmed]
  rw [hm, hr]
  exact ⟨hspec, hs' ▸ hspec.good⟩

theorem good_run {s s' : Traced φ ω} {calls : List (Call φ ω × Ret φ ω)} (hs : Good s)
    (h : Run Step s calls s') : Good s' :=
  h.invariant (I := Good) (fun _ _ _ hg hstep => (hstep.callSpec hg).2) hs

/-- A timer without a callback stays so, and no call returns it. -/
theorem dead_run {s s' : Traced φ ω} {calls : List (Call φ ω × Ret φ ω)} (hs : Good s)
    (h : Run Step s calls s') {t : Nat} (hd : Dead s.mgr t) :
    Dead s'.mgr t ∧ ∀ l ∈ calls, t ∉ l.2.expired := by
  induction h with
  | nil => exact ⟨hd, by simp⟩
  | cons hstep _ ih =>
    obtain ⟨hspec, hgood⟩ := Step.callSpec hs hstep
    obtain ⟨hd₁, hnot⟩ := hspec.dead t hd
    obtain ⟨hd', hall⟩ := ih hgood hd₁
    exact ⟨hd', List.forall_mem_cons.mpr ⟨hnot, hall⟩⟩

/-- After every run the representation invariant holds, a lookup of a timer of the set hits that
timer, every legal call goes through without a fault, and a timer that a call ends is never in
the set nor among the expired timers afterwards. -/
theorem set_invariant (now : UInt64) (calls : List (Call φ ω × Ret φ ω)) (s : Traced φ ω)
    (h : Run Step (start now) calls s) :
    Rep s ∧
    (∀ t ∈ s.mgr.m_timers, s.mgr.m_timers[find s.mgr.less t s.mgr.m_timers]? = some t) ∧
    (∀ c, Legal s.mgr c → ∃ r s', Step s (c, r) s') ∧
    (∀ c expired cbs s', Step s (c, .callbacks expired cbs) s' →
      cbs = expired.map (fun t => (s.mgr.timer t).m_cb) ∧ ∀ cb ∈ cbs, cb.isSome) ∧
    ∀ t l s₁ later s₂, Step s l s₁ → Ends s.mgr t l → Run Step s₁ later s₂ →
      t ∉ s₂.mgr.m_timers ∧ (s₂.mgr.timer t).m_cb = none ∧ ∀ l ∈ later, t ∉ l.2.expired := by
  have hgood : Good s := good_run (good_start now) h
  refine ⟨hgood.rep, fun t ht => (hgood.inv.findErase ht).1, ?_, ?_, ?_⟩
  · intro c hlegal
    obtain ⟨m', r, hspec⟩ := call_spec hgood hlegal
    exact ⟨r, ⟨m', armedBy s.mgr s.armed c r⟩, hlegal, hspec.run, rfl⟩
  · intro c expired cbs s' hstep
    obtain ⟨hspec, -⟩ := hstep.callSpec hgood
    obtain ⟨hcbs, hmem⟩ := hspec.cbs expired cbs rfl
    refine ⟨hcbs, ?_⟩
    rw [hcbs, List.forall_mem_map]
    exact fun t ht => hgood.cb_of_mem t (hmem t ht)
  · intro t l s₁ later s₂ hstep hends hlater
    obtain ⟨hspec, hgood₁⟩ := hstep.callSpec hgood
    obtain ⟨hdead, hall⟩ := dead_run hgood₁ hlater (hspec.ends t hends)
    exact ⟨hdead.not_mem (good_run hgood₁ hlater), hdead.2, hall⟩

/-- A recurring timer and one that fires once; the first is refreshed and later cancelled. -/
theorem run_five : ∃ s : Traced Nat Nat, Run Step (start 0)
    [(.addTimer 7 10 0 true 100, .timer 7), (.addTimer 3 5 1 false 100, .timer 3),
      (.refresh 7 101, .result true), (.listExpiredCb 105 9, .callbacks [3] [some (.plain 1)]),
      (.cancel 7, .result true)] s := by
  refine ⟨⟨?_, ?_⟩, ?_⟩
  rotate_left 2
  · refine .cons (t := ⟨_, _⟩) ⟨rfl, rfl, rfl⟩ ?_
    refine .cons (t := ⟨_, _⟩) ⟨rfl, rfl, rfl⟩ ?_
    refine .cons (t := ⟨_, _⟩) ⟨rfl, rfl, rfl⟩ ?_
    refine .cons (t := ⟨_, _⟩) ⟨trivial, rfl, rfl⟩ ?_
    refine .cons (t := ⟨_, _⟩) ⟨rfl, rfl, rfl⟩ ?_
    exact .nil _

theorem set_invariant_five : ∃ (calls : _) (s : Traced Nat Nat),
    Run Step (start 0) calls s ∧ calls.length = 5 ∧ Rep s := by
  obtain ⟨s, h⟩ := run_five
  exact ⟨_, s, h, rfl, (set_invariant 0 _ s h).1⟩

end Captain.TimerManager
