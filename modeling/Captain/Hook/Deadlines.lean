import Captain.Hook.Steps
import Captain.Timer.Delay

/-!
# When a call of `do_io` times out

`Timely` is the invariant: the timers of the set that a call has set are due its timeout after it
began, and so were those whose callbacks are queued or have been run.
-/

namespace Captain.System

open TimerManager Transition

variable {χ : Type} {s s' : System χ} {l : Label χ}

instance (m : TimerManager (Lambda χ) Nat) (now_ms : UInt64) : Decidable (NotFarBehind m now_ms) :=
  inferInstanceAs (Decidable (_ ∨ _))

/-- The clock does not go back and the deadline of a call does not overflow. -/
def clocked (s : System χ) : Label χ → Bool
  | .tick now => s.timers.clock ≤ now
  | .construct c _ => (s.calls c).all fun k =>
    s.timers.clock.toNat + k.timeout.toNat < UInt64.size
  | _ => true

/-- No pass is made with a reading so far behind that it finds a rollover. -/
def noRollover (s : System χ) : Label χ → Bool
  | .pass i _ => (s.timers.pc (.worker i)).reading.all fun now_ms =>
    NotFarBehind s.timers.mgr now_ms
  | _ => true

/-- The call may set a timer of `ms` at the reading `now`. -/
def MaySet (s : System χ) (c : Nat) (now ms : UInt64) : Prop :=
  ∃ k, s.calls c = some k ∧ k.began ≤ now ∧ ms = k.timeout ∧ now.toNat + ms.toNat < UInt64.size

/-- The timer `t` was set by the call `c`, and was found expired its timeout or more later. -/
def Due (s : System χ) (c t : Nat) : Prop :=
  ∃ k now r, s.calls c = some k ∧ s.armed t = some (c, now) ∧ (t, r) ∈ s.expired ∧
    k.began ≤ now ∧ now.toNat + k.timeout.toNat ≤ r.toNat ∧ r ≤ s.timers.clock

/-- What the timers carry. -/
structure Armed (s : System χ) : Prop where
  inv : TimerManager.Inv s.timers.mgr
  heap : ∀ t, (s.armed t).isSome → (s.timers.mgr.heap t).isSome
  began : ∀ c k, s.calls c = some k → k.began ≤ s.timers.clock
  reading : ∀ j now, Threads.Listing (s.timers.pc j) now → now ≤ s.timers.clock
  constructed : ∀ j t ms cb recurring now, s.timers.pc j = .constructed t ms cb recurring now →
    ∀ f, timeoutOf cb = some f →
      j = .call f.1 ∧ f.2.1 = f.1 ∧ recurring = false ∧ MaySet s f.1 now ms
  armed : ∀ t ∈ s.timers.mgr.m_timers, ∀ f, timeoutOf (s.timers.mgr.timer t).m_cb = some f →
    f.2.1 = f.1 ∧ (s.timers.mgr.timer t).m_recurring = false ∧
      ∃ now, s.armed t = some (f.1, now) ∧ MaySet s f.1 now (s.timers.mgr.timer t).m_ms ∧
        (s.timers.mgr.timer t).m_next = now + (s.timers.mgr.timer t).m_ms

structure Timely (s : System χ) : Prop extends Armed s where
  tasks : ∀ x ∈ s.tasks, x.winfo = x.weak_cond ∧ Due s x.winfo x.timer
  cancelled : ∀ c k t, s.calls c = some k → k.cancelled = some t → Due s c t
  timedOut : ∀ c k, s.calls c = some k → k.pc = .timedOut → k.cancelled.isSome

/-! ## What a step only adds to -/

structure Grows (s s' : System χ) : Prop where
  calls : ∀ c k, s.calls c = some k → ∃ k', s'.calls c = some k' ∧ Same k k'
  armed : ∀ t a, s.armed t = some a → s'.armed t = some a
  expired : ∀ e ∈ s.expired, e ∈ s'.expired
  clock : s.timers.clock ≤ s'.timers.clock

theorem Grows.maySet (hg : Grows s s') {c : Nat} {now ms : UInt64} (h : MaySet s c now ms) :
    MaySet s' c now ms := by
  obtain ⟨k, hk, hbegan, hms, hsum⟩ := h
  obtain ⟨k', hk', hsame⟩ := hg.calls c k hk
  exact ⟨k', hk', hsame.began ▸ hbegan, hsame.timeout ▸ hms, hsum⟩

theorem Grows.due (hg : Grows s s') {c t : Nat} (h : Due s c t) : Due s' c t := by
  obtain ⟨k, now, r, hk, harmed, hexpired, hbegan, hsum, hr⟩ := h
  obtain ⟨k', hk', hsame⟩ := hg.calls c k hk
  exact ⟨k', now, r, hk', hg.armed t _ harmed, hg.expired _ hexpired, hsame.began ▸ hbegan,
    hsame.timeout ▸ hsum, UInt64.le_trans hr hg.clock⟩

/-- A new timer gets an address that was not in use. -/
theorem heap_of_insert {s s' : Timers χ} (hinv : TimerManager.Inv s.mgr) {i : Agent} {t : Nat}
    {ms now : UInt64} {cb : Option (Callback (Lambda χ) Nat)} {recurring : Bool}
    (hcon : s.pc i = .constructed t ms cb recurring now) (h : Threads.Step s (.insert i) s') :
    s.mgr.heap t = none ∧ (s'.mgr.heap t).isSome := by
  cases h with
  | insert hpc ht hrun =>
    rw [hpc] at hcon
    cases hcon
    refine ⟨ht, ?_⟩
    obtain ⟨m, at_front, hrun', -, hheap, -⟩ := hinv.addTimer_spec ht ms cb recurring now
    rw [hrun'] at hrun
    cases hrun
    exact hheap ▸ Held.heap_put_isSome _ _ _ (Or.inl rfl)

theorem Effect.grows (h : Effect s l s') (ha : Armed s) (hl : s.clocked l) : Grows s s' := by
  have hcalls : ∀ c k, s.calls c = some k → ∃ k', s'.calls c = some k' ∧ Same k k' := by
    intro c k hk
    obtain ⟨k', hk', hmove⟩ := h.call hk
    exact ⟨k', hk', hmove.same⟩
  have hclock : ∀ {timers l'}, Threads.Step s.timers l' timers → (∀ now, l' ≠ .tick now) →
      s.timers.clock ≤ timers.clock := by
    intro timers l' hl' hne
    rw [hl'.clock hne]
    exact UInt64.le_refl _
  cases h with
  | descriptors htimers hevents hcalls' htasks harmed hexpired =>
    exact ⟨hcalls, fun t a => by rw [harmed]; exact id, fun e => by rw [hexpired]; exact id,
      by rw [htimers]; exact UInt64.le_refl _⟩
  | tick now => exact ⟨hcalls, fun _ _ => id, fun _ => id, of_decide_eq_true hl⟩
  | timer hf hstep =>
    refine ⟨hcalls, fun _ _ => id, fun _ => id, hclock hstep ?_⟩
    rintro now rfl
    cases hf
  | pass => exact ⟨hcalls, fun _ _ => id, fun e he => List.mem_append_left _ he, UInt64.le_refl _⟩
  | construct hc hpc hstep => exact ⟨hcalls, fun _ _ => id, fun _ => id, hclock hstep nofun⟩
  | announce hstep => exact ⟨hcalls, fun _ _ => id, fun _ => id, hclock hstep nofun⟩
  | @insert c t k hc hpc ms now cb recurring hcon timers hstep =>
    refine ⟨hcalls, fun t' a ha' => ?_, fun _ => id, hclock hstep nofun⟩
    have hne : t' ≠ t := by
      rintro rfl
      have := ha.heap t' (by rw [ha']; rfl)
      rw [(heap_of_insert ha.inv hcon hstep).1] at this
      cases this
    exact (Function.update_of_ne hne ..).trans ha'
  | cancel hc hpc hcancel =>
    refine ⟨hcalls, fun _ _ => id, fun _ => id, ?_⟩
    rcases hcancel with rfl | ⟨t, hstep⟩
    · exact UInt64.le_refl _
    · exact hclock hstep nofun
  | _ => exact ⟨hcalls, fun _ _ => id, fun _ => id, UInt64.le_refl _⟩

/-! ## The timers -/

/-- A step of the timers that may be made. -/
def Allowed (s s' : System χ) : TimerManager.Label (Lambda χ) Nat Agent → Prop
  | .construct j _ ms cb recurring => ∀ f, timeoutOf cb = some f →
    j = .call f.1 ∧ f.2.1 = f.1 ∧ recurring = false ∧ MaySet s f.1 s.timers.clock ms
  | .insert j => ∀ c t ms cb recurring now, j = .call c →
    s.timers.pc j = .constructed t ms cb recurring now → s'.armed t = some (c, now)
  | .refresh _ t | .reset _ t _ _ => s.armed t = none
  | _ => True

theorem Armed.of_timers (h : Armed s) (hg : Grows s s')
    (hheap : ∀ t, (s'.armed t).isSome → (s.armed t).isSome ∨ (s'.timers.mgr.heap t).isSome)
    (hbegan : ∀ c k, s'.calls c = some k → k.began ≤ s'.timers.clock)
    {l : TimerManager.Label (Lambda χ) Nat Agent} (hstep : Threads.Step s.timers l s'.timers)
    (hl : Allowed s s' l) : Armed s' where
  inv := hstep.inv h.inv
  heap t ht := (hheap t ht).elim (fun hold => hstep.heap h.inv (h.heap t hold)) id
  began := hbegan
  reading j now hpc' := by
    rcases hstep.reading hpc' with hpc | rfl
    · exact UInt64.le_trans (h.reading j now hpc) hg.clock
    · exact hg.clock
  constructed j t ms cb recurring now hpc' f hf := by
    rcases hstep.constructed hpc' with hpc | ⟨rfl, rfl⟩
    · obtain ⟨hj, hw, hrec, hset⟩ := h.constructed j t ms cb recurring now hpc f hf
      exact ⟨hj, hw, hrec, hg.maySet hset⟩
    · obtain ⟨hj, hw, hrec, hset⟩ := hl f hf
      exact ⟨hj, hw, hrec, hg.maySet hset⟩
  armed t ht f hf := by
    rcases hstep.timers h.inv ht with ⟨hold, heq⟩ | ⟨j, ms, cb, recurring, now, rfl, hpc, heq⟩ |
      ⟨hold, hrearms, hcb⟩
    · rw [heq] at hf ⊢
      obtain ⟨hw, hrec, now, harmed, hset, hnext⟩ := h.armed t hold f hf
      exact ⟨hw, hrec, now, hg.armed t _ harmed, hg.maySet hset, hnext⟩
    · rw [heq] at hf ⊢
      obtain ⟨hj, hw, hrec, hset⟩ := h.constructed j t ms cb recurring now hpc f hf
      exact ⟨hw, hrec, now, hl f.1 t ms cb recurring now hj hpc, hg.maySet hset, rfl⟩
    · -- a timer of a call is armed once
      rw [hcb] at hf
      obtain ⟨-, hrec, now, harmed, -⟩ := h.armed t hold f hf
      rcases hrearms.called hrec with ⟨i, rfl⟩ | ⟨i, ms, from_now, rfl⟩
      · cases hl.symm.trans harmed
      · cases hl.symm.trans harmed

theorem Armed.congr (h : Armed s) (hg : Grows s s')
    (hbegan : ∀ c k, s'.calls c = some k → k.began ≤ s'.timers.clock)
    (htimers : s'.timers = s.timers) (harmed : s'.armed = s.armed) : Armed s' := by
  have hset : ∀ {c now ms}, MaySet s c now ms → MaySet s' c now ms := hg.maySet
  obtain ⟨hinv, hheap, -, hreading, hconstructed, hold⟩ := h
  rw [htimers] at hbegan
  constructor <;> rw [htimers]
  · exact hinv
  · rwa [harmed]
  · exact hbegan
  · exact hreading
  · intro j t ms cb recurring now hpc f hf
    obtain ⟨hj, hw, hrec, h⟩ := hconstructed j t ms cb recurring now hpc f hf
    exact ⟨hj, hw, hrec, hset h⟩
  · intro t ht f hf
    obtain ⟨hw, hrec, now, h, hms, hnext⟩ := hold t ht f hf
    exact ⟨hw, hrec, now, by rw [harmed, h], hset hms, hnext⟩

theorem Effect.armed (h : Effect s l s') (ha : Armed s) (hl : s.clocked l) : Armed s' := by
  have hg := h.grows ha hl
  have hbegan : ∀ c k, s'.calls c = some k → k.began ≤ s'.timers.clock := by
    intro c k' hk'
    apply UInt64.le_trans ?_ hg.clock
    rcases h.of_call hk' with ⟨-, fd, event, timeout, file, rfl⟩ | ⟨k, hk, hmove⟩
    · exact UInt64.le_refl _
    · rw [hmove.same.began]
      exact ha.began c k hk
  cases h with
  | descriptors htimers hevents hcalls htasks harmed => exact ha.congr hg hbegan htimers harmed
  | tick now => exact ha.of_timers hg (fun _ => Or.inl) hbegan (.tick s.timers now) trivial
  | timer hf hstep =>
    refine ha.of_timers hg (fun _ => Or.inl) hbegan hstep ?_
    unfold foreignTimer at hf
    split at hf
    · intro f hcb
      rw [hcb] at hf
      cases hf
    · trivial
    · exact Option.isNone_iff_eq_none.mp hf
    · exact Option.isNone_iff_eq_none.mp hf
    · intro c t ms cb recurring now hj
      cases hj
    · trivial
    · trivial
    · trivial
    · trivial
    · cases hf
  | pass hpc hrun =>
    have hstep := Threads.Step.pass hpc hrun
    exact ha.of_timers hg (fun _ => Or.inl) hbegan hstep trivial
  | @construct c t k hc hpc timers hstep =>
    refine ha.of_timers hg (fun _ => Or.inl) hbegan hstep ?_
    intro f hf
    cases hf
    simp only [clocked, hc, Option.all_some, decide_eq_true_eq] at hl
    exact ⟨rfl, rfl, rfl, k, hc, ha.began c k hc, rfl, hl⟩
  | @insert c t k hc hpc ms now cb recurring hcon timers hstep =>
    refine ha.of_timers hg (fun t' ht' => ?_) hbegan hstep ?_
    · by_cases heq : t' = t
      · rw [heq]
        exact Or.inr (heap_of_insert ha.inv hcon hstep).2
      · refine Or.inl ?_
        rwa [← show Function.update s.armed t (some (c, now)) t' = s.armed t' from
          Function.update_of_ne heq ..]
    · intro c' t' ms' cb' recurring' now' hj hpc'
      cases hj
      rw [hcon] at hpc'
      cases hpc'
      exact Function.update_self ..
  | announce hstep => exact ha.of_timers hg (fun _ => Or.inl) hbegan hstep trivial
  | cancel hc hpc hcancel =>
    rcases hcancel with rfl | ⟨t, hstep⟩
    · exact ha.congr hg hbegan rfl rfl
    · exact ha.of_timers hg (fun _ => Or.inl) hbegan hstep trivial
  | _ => exact ha.congr hg hbegan rfl rfl

/-! ## The callbacks -/

theorem mem_collect {expired : List Nat} {g : Nat → Option (Callback (Lambda χ) Nat)} {x : Expiry}
    (hx : x ∈ collect expired (expired.map g)) :
    ∃ t ∈ expired, ∃ f, timeoutOf (g t) = some f ∧ x.timer = t ∧ x.weak_cond = f.1 ∧
      x.winfo = f.2.1 := by
  have hzip : expired.zip (expired.map g) = expired.map fun t => (t, g t) := by
    have h := List.zip_map' (f := id) (g := g) (l := expired)
    rwa [List.map_id] at h
  unfold collect at hx
  rw [hzip] at hx
  obtain ⟨e, hmem, hmap⟩ := List.mem_filterMap.mp hx
  obtain ⟨f, hf, rfl⟩ := Option.map_eq_some_iff.mp hmap
  obtain ⟨t, ht, rfl⟩ := List.mem_map.mp hmem
  exact ⟨t, ht, f, hf, rfl, rfl, rfl⟩

/-- What a pass without a rollover finds expired is due. -/
theorem Armed.due_of_pass (ha : Armed s) (hg : Grows s s') {i : Agent} {now_ms : UInt64}
    (hpc : s.timers.pc i = .expiring now_ms) (hin : NotFarBehind s.timers.mgr now_ms)
    {now_timer : Nat} {m : TimerManager (Lambda χ) Nat} {expired : List Nat}
    {cbs : List (Option (Callback (Lambda χ) Nat))}
    (hrun : s.timers.mgr.expirePass now_ms now_timer = .ok (m, expired, cbs))
    (hexpired : s'.expired = s.expired ++ expired.map fun t => (t, now_ms)) {x : Expiry}
    (hx : x ∈ collect expired cbs) : x.winfo = x.weak_cond ∧ Due s' x.winfo x.timer := by
  obtain ⟨hcbs, hexp⟩ := ha.inv.cbs_of_expirePass hrun
  rw [hcbs] at hx
  obtain ⟨t, ht, f, hf, rfl, hweak, hwinfo⟩ := mem_collect hx
  have hmem := hexp.pre.subset ht
  obtain ⟨hw, -, now, harmed, ⟨k, hk, hbegan, hms, hsum⟩, hnext⟩ := ha.armed x.timer hmem f hf
  obtain ⟨k', hk', hsame⟩ := hg.calls f.1 k hk
  have hdue := (hexp.due x.timer hmem).mp ht
  rw [(notFarBehind_iff _ _).mp hin, hnext, UInt64.le_iff_toNat_le, toNat_add_of_lt hsum] at hdue
  rw [hwinfo, hweak, hw]
  refine ⟨rfl, k', now, now_ms, hk', hg.armed _ _ harmed, ?_, hsame.began ▸ hbegan, ?_, ?_⟩
  · rw [hexpired]
    exact List.mem_append_right _ (List.mem_map_of_mem ht)
  · rw [hsame.timeout, ← hms]
    exact hdue.resolve_left Bool.false_ne_true
  · exact UInt64.le_trans (ha.reading i now_ms (Or.inr hpc)) hg.clock

/-- **Step lemma.** -/
theorem Effect.timely (h : Effect s l s') (ht : Timely s) (hl : s.clocked l)
    (hroll : s.noRollover l) : Timely s' := by
  have hg := h.grows ht.toArmed hl
  refine ⟨h.armed ht.toArmed hl, ?_, ?_, ?_⟩
  · intro x' hx'
    rcases h.of_task hx' with ⟨x, hx, htimer, hweak, hwinfo⟩ |
      ⟨i, now_timer, now_ms, m, expired, cbs, rfl, hpc, hrun, hexpired, hx⟩
    · obtain ⟨hw, hdue⟩ := ht.tasks x hx
      rw [htimer, hweak, hwinfo]
      exact ⟨hw, hg.due hdue⟩
    · simp only [noRollover, hpc, Pc.reading, Option.all_some, decide_eq_true_eq] at hroll
      exact ht.due_of_pass hg hpc hroll hrun hexpired hx
  · intro c k' t hk' hcancelled
    rcases h.of_call hk' with ⟨-, fd, event, timeout, file, rfl⟩ | ⟨k, hk, hmove⟩
    · cases hcancelled
    · have hold : k'.cancelled = k.cancelled → Due s' c t :=
        fun heq => hg.due (ht.cancelled c k t hk (heq ▸ hcancelled))
      cases hmove with
      | flag hx hw =>
        cases hcancelled
        rw [← hw]
        exact hg.due (ht.tasks _ hx).2
      | @syscall hpc outcome => exact hold (by cases outcome <;> rfl)
      | addEventLock => exact hold (by split <;> rfl)
      | _ => exact hold rfl
  · intro c k' hk' hpc'
    rcases h.of_call hk' with ⟨-, fd, event, timeout, file, rfl⟩ | ⟨k, hk, hmove⟩
    · cases hpc'
    · cases hmove with
      | stay => exact ht.timedOut c _ hk hpc'
      | flag => rfl
      | wake => exact ht.timedOut c k hk hpc'
      | check =>
        dsimp only at hpc' ⊢
        split at hpc'
        · assumption
        · cases hpc'
      | @syscall hpc outcome =>
        cases outcome <;> simp only [answer] at hpc'
        · cases hpc'
        · split at hpc' <;> cases hpc'
        · rw [hpc] at hpc'
          cases hpc'
        · cases hpc'
      | addEventLock =>
        split at hpc' <;> cases hpc'
      | cancel hpc =>
        rcases hpc with ⟨-, rfl⟩ | ⟨-, rfl⟩ <;> cases hpc'
      | _ => cases hpc'

theorem timely_init (now : UInt64) (kernel : Kernel) : Timely (init now kernel : System χ) where
  inv := inv_new now
  heap t ht := by cases ht
  began c k hk := by cases hk
  reading j r hpc := by rcases hpc with hpc | hpc <;> cases hpc
  constructed j t ms cb recurring r hpc := by cases hpc
  armed t ht := by cases ht
  tasks x hx := by cases hx
  cancelled c k t hk := by cases hk
  timedOut c k hk := by cases hk

theorem run_timely {now : UInt64} {kernel : Kernel} {ls : List (Label χ)} {s : System χ}
    (h : Run (Guard (fun s l => s.clocked l ∧ s.noRollover l) Step) (init now kernel) ls s) :
    Timely s :=
  h.invariant (I := Timely) (fun _ _ _ ht hst => hst.2.effect.timely ht hst.1.1 hst.1.2)
    (timely_init now kernel)

end Captain.System
