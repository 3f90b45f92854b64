import Captain.Hook.DoIo

/-!
# What a step does among the suspended calls

`Effect` gives for each label what it writes, and `Step.effect` inverts the step function. From it:

* `Effect.of_call`: a call is begun, or goes on as `Move` tells.
* `Effect.of_task`: a callback comes from the pass that found its timer expired.
-/

namespace Captain.System

variable {χ : Type} {s s' : System χ} {l : Label χ}

/-- What a step writes. -/
inductive Effect (s : System χ) : Label χ → System χ → Prop
  | descriptors {l : Label χ} {s' : System χ} (htimers : s'.timers = s.timers)
      (hevents : s'.events = s.events) (hcalls : s'.calls = s.calls) (htasks : s'.tasks = s.tasks)
      (harmed : s'.armed = s.armed) (hexpired : s'.expired = s.expired) : Effect s l s'
  | tick (now : UInt64) : Effect s (.tick now) { s with timers.clock := now }
  | timer {l : TimerManager.Label (Lambda χ) Nat Agent} (hl : s.foreignTimer l = true)
      {timers : Timers χ} (h : TimerManager.Threads.Step s.timers l timers) :
      Effect s (.timer l) { s with timers }
  | pass {i now_timer : Nat} {now_ms : UInt64} (hpc : s.timers.pc (.worker i) = .expiring now_ms)
      {m : TimerManager (Lambda χ) Nat} {expired : List Nat}
      {cbs : List (Option (Callback (Lambda χ) Nat))}
      (hrun : s.timers.mgr.expirePass now_ms now_timer = .ok (m, expired, cbs)) :
      Effect s (.pass i now_timer) { s with
        timers := s.timers.goto m (.worker i) .idle
        tasks := s.tasks ++ collect expired cbs
        expired := s.expired ++ expired.map fun t => (t, now_ms) }
  | event {l : IOManager.Label Unit (Lambda χ) (Waiter χ) Agent} (hl : foreignEvent l = true)
      {events : Events χ} (h : IOManager.Threads.Step s.events l events) :
      Effect s (.event l) { s with events }
  | cancelAllFind {j fd : Nat} {p : DescPc} {events : Events χ}
      (h : IOManager.Threads.Step s.events (.find (.desc j) (.cancelAll fd)) events) :
      Effect s (.cancelAllFind j) ({ s with events }.setDesc j p)
  | cancelAllLock {j : Nat} {rt : Bool} {p : DescPc} {events : Events χ}
      (h : IOManager.Threads.Step s.events (.lock (.desc j) rt) events) :
      Effect s (.cancelAllLock j rt) ({ s with
        events
        calls := wake (events.mgr.scheduled.drop s.events.mgr.scheduled.length) s.calls }.setDesc
          j p)
  | begin {c fd timeout_so : Nat} {event : Event} {hook_enable : Bool} (hc : s.calls c = none)
      (timeout : UInt64) : Effect s (.begin c fd event hook_enable timeout_so)
        (s.setCall c { fd, event, timeout, began := s.timers.clock, file := s.opened fd })
  | syscall {c : Nat} {k : Call} (hc : s.calls c = some k) (hpc : k.pc = .trying)
      {outcome : Outcome} (hnone : s.fds.kernel k.fd = none → outcome = .failed) :
      Effect s (.syscall c outcome) (s.setCall c (answer k outcome
        ((s.fds.kernel k.fd).isSome && s.opened k.fd != k.file)))
  | construct {c t : Nat} {k : Call} (hc : s.calls c = some k) (hpc : k.pc = .arming)
      {timers : Timers χ} (h : TimerManager.Threads.Step s.timers
        (.construct (.call c) t k.timeout (some (callback c k)) false) timers) :
      Effect s (.construct c t) ({ s with timers }.setCall c { k with pc := .inserting })
  | insert {c t : Nat} {k : Call} (hc : s.calls c = some k) (hpc : k.pc = .inserting)
      {ms now : UInt64} {cb : Option (Callback (Lambda χ) Nat)} {recurring : Bool}
      (hcon : s.timers.pc (.call c) = .constructed t ms cb recurring now)
      {timers : Timers χ} (h : TimerManager.Threads.Step s.timers (.insert (.call c)) timers) :
      Effect s (.insert c)
        ({ s with timers, armed := Function.update s.armed t (some (c, now)) }.setCall c
          { k with pc := .registering (some t) })
  | announce {c : Nat} {timers : Timers χ}
      (h : TimerManager.Threads.Step s.timers (.announce (.call c)) timers) :
      Effect s (.announce c) { s with timers }
  | addEventFind {c : Nat} {k : Call} (hc : s.calls c = some k) {timer : Option Nat}
      (hpc : k.pc = .registering timer) {events : Events χ}
      (h : IOManager.Threads.Step s.events (.find (.call c) (addEvent c k)) events) :
      Effect s (.addEventFind c) { s with events }
  | addEventGrow {c : Nat} {events : Events χ}
      (h : IOManager.Threads.Step s.events (.grow (.call c)) events) :
      Effect s (.addEventGrow c) { s with events }
  | addEventLock {c : Nat} {k : Call} (hc : s.calls c = some k) {timer : Option Nat}
      (hpc : k.pc = .registering timer) {rt : Bool}
      {events : Events χ} (h : IOManager.Threads.Step s.events (.lock (.call c) rt) events) :
      Effect s (.addEventLock c rt) ({ s with events }.setCall c
        (if rt then { k with pc := .waiting timer, registrations := k.registrations + 1 }
        else { k with pc := .refused timer }))
  | resume {c : Nat} {k : Call} (hc : s.calls c = some k) {timer : Option Nat}
      (hpc : k.pc = .waiting timer)
      (hin : s.events.mgr.scheduled.any (fun t => t.2.isCallAt c k.registrations) = true) :
      Effect s (.resume c) (s.setCall c { k with pc := .resumed timer })
  | cancel {c : Nat} {k : Call} (hc : s.calls c = some k) {timer : Option Nat} {p : CallPc}
      (hpc : k.pc = .resumed timer ∧ p = .checking ∨ k.pc = .refused timer ∧ p = .returned (-1))
      {timers : Timers χ} (h : timers = s.timers ∨
        ∃ t, TimerManager.Threads.Step s.timers (.cancel (.call c) t) timers) :
      Effect s (.cancel c) ({ s with timers }.setCall c { k with pc := p })
  | check {c : Nat} {k : Call} (hc : s.calls c = some k) (hpc : k.pc = .checking) :
      Effect s (.check c)
        (s.setCall c { k with pc := if k.cancelled.isSome then .timedOut else .trying })
  | task {l : Label χ} {i : Nat} {x : Expiry} (hx : s.tasks[i]? = some x) (p : TaskPc) :
      Effect s l (s.setTask i { x with pc := p })
  | flag {i : Nat} {x : Expiry} (hx : s.tasks[i]? = some x) {k : Call}
      (hc : s.calls x.winfo = some k) :
      Effect s (.flag i) ((s.setCall x.winfo { k with cancelled := some x.timer }).setTask i
        { x with pc := .cancelling })
  | cancelEventFind {i : Nat} {x : Expiry} (hx : s.tasks[i]? = some x) {p : TaskPc}
      {events : Events χ} (h : IOManager.Threads.Step s.events
        (.find (.task i) (.cancelEvent x.fd x.event)) events) :
      Effect s (.cancelEventFind i) ({ s with events }.setTask i { x with pc := p })
  | cancelEventLock {i : Nat} {x : Expiry} (hx : s.tasks[i]? = some x) {rt : Bool}
      {events : Events χ} (h : IOManager.Threads.Step s.events (.lock (.task i) rt) events) :
      Effect s (.cancelEventLock i rt) ({ s with events }.setTask i { x with pc := .ended })

theorem writeCtx_effect (s : System χ) (l : Label χ) (fd : Nat) (f : FdCtx → FdCtx) :
    Effect s l (s.writeCtx fd f) := by
  unfold writeCtx
  split <;> exact .descriptors rfl rfl rfl rfl rfl rfl

theorem timers_of_map {timers : Timers χ} {l : TimerManager.Label (Lambda χ) Nat Agent}
    {f : Timers χ → System χ} (h : (timers.next l).map f = some s') :
    ∃ timers', TimerManager.Threads.Step timers l timers' ∧ f timers' = s' := by
  obtain ⟨timers', hnext, heq⟩ := Option.map_eq_some_iff.mp h
  exact ⟨timers', TimerManager.Threads.next_sound _ _ _ hnext, heq⟩

theorem events_of_map {events : Events χ} {l : IOManager.Label Unit (Lambda χ) (Waiter χ) Agent}
    {f : Events χ → System χ} (h : (events.next l).map f = some s') :
    ∃ events', IOManager.Threads.Step events l events' ∧ f events' = s' := by
  obtain ⟨events', hnext, heq⟩ := Option.map_eq_some_iff.mp h
  exact ⟨events', IOManager.Threads.next_sound _ _ _ hnext, heq⟩

theorem cancelTimer_step {c : Nat} {timer : Option Nat} {timers : Timers χ}
    (h : s.cancelTimer c timer = some timers) :
    timers = s.timers ∨ ∃ t, TimerManager.Threads.Step s.timers (.cancel (.call c) t) timers := by
  cases timer with
  | none =>
    cases h
    exact Or.inl rfl
  | some t => exact Or.inr ⟨t, TimerManager.Threads.next_sound _ _ _ h⟩

/-- **Inversion.** -/
theorem Step.effect (h : Step s l s') : Effect s l s' := by
  cases l with
  | tick now =>
    cases h
    exact .tick now
  | timer l =>
    simp only [Step, next] at h
    split at h
    · obtain ⟨timers, hstep, rfl⟩ := timers_of_map h
      exact .timer ‹_› hstep
    · cases h
  | pass i now_timer =>
    simp only [Step, next] at h
    split at h
    · split at h <;> cases h
      exact .pass ‹_› ‹_›
    · cases h
  | event l =>
    simp only [Step, next] at h
    split at h
    · obtain ⟨events, hstep, rfl⟩ := events_of_map h
      exact .event ‹_› hstep
    · cases h
  | setTimeout fd type v =>
    cases h
    exact writeCtx_effect ..
  | setUserNonblock fd v =>
    cases h
    exact writeCtx_effect ..
  | socket j fd f =>
    simp only [Step, next] at h
    split at h <;> cases h
    exact .descriptors rfl rfl rfl rfl rfl rfl
  | adopt j =>
    simp only [Step, next] at h
    split at h
    · split at h <;> cases h
      exact .descriptors rfl rfl rfl rfl rfl rfl
    · cases h
  | close j fd iom =>
    simp only [Step, next] at h
    split at h <;> cases h
    exact .descriptors rfl rfl rfl rfl rfl rfl
  | cancelAllFind j =>
    simp only [Step, next] at h
    split at h
    · obtain ⟨events, hstep, rfl⟩ := events_of_map h
      exact .cancelAllFind hstep
    · cases h
  | cancelAllLock j rt =>
    simp only [Step, next] at h
    split at h
    · obtain ⟨events, hstep, rfl⟩ := events_of_map h
      exact .cancelAllLock hstep
    · cases h
  | del j =>
    simp only [Step, next] at h
    split at h
    · split at h <;> cases h
      exact .descriptors rfl rfl rfl rfl rfl rfl
    · cases h
  | close_f j =>
    simp only [Step, next] at h
    split at h <;> cases h
    exact .descriptors rfl rfl rfl rfl rfl rfl
  | begin c fd event hook_enable timeout_so =>
    simp only [Step, next] at h
    split at h
    · split at h <;> cases h
      exact .begin ‹_› _
    · cases h
  | syscall c outcome =>
    obtain ⟨k, hc, h⟩ := Option.bind_eq_some_iff.mp h
    split at h <;> cases h
    rename_i hpc
    exact .syscall hc hpc.1 hpc.2
  | construct c t =>
    obtain ⟨k, hc, h⟩ := Option.bind_eq_some_iff.mp h
    split at h
    · obtain ⟨timers, hstep, rfl⟩ := timers_of_map h
      exact .construct hc ‹_› hstep
    · cases h
  | insert c =>
    obtain ⟨k, hc, h⟩ := Option.bind_eq_some_iff.mp h
    split at h
    · obtain ⟨timers, hstep, rfl⟩ := timers_of_map h
      exact .insert hc ‹_› ‹_› hstep
    · cases h
  | announce c =>
    obtain ⟨timers, hstep, rfl⟩ := timers_of_map h
    exact .announce hstep
  | addEventFind c =>
    obtain ⟨k, hc, h⟩ := Option.bind_eq_some_iff.mp h
    split at h
    · obtain ⟨events, hstep, rfl⟩ := events_of_map h
      exact .addEventFind hc ‹_› hstep
    · cases h
  | addEventGrow c =>
    obtain ⟨events, hstep, rfl⟩ := events_of_map h
    exact .addEventGrow hstep
  | addEventLock c rt =>
    obtain ⟨k, hc, h⟩ := Option.bind_eq_some_iff.mp h
    split at h
    · obtain ⟨events, hstep, rfl⟩ := events_of_map h
      exact .addEventLock hc ‹_› hstep
    · cases h
  | resume c =>
    obtain ⟨k, hc, h⟩ := Option.bind_eq_some_iff.mp h
    split at h
    · split at h <;> cases h
      exact .resume hc ‹_› ‹_›
    · cases h
  | cancel c =>
    obtain ⟨k, hc, h⟩ := Option.bind_eq_some_iff.mp h
    split at h
    · obtain ⟨timers, hcancel, rfl⟩ := Option.map_eq_some_iff.mp h
      exact .cancel hc (Or.inl ⟨‹_›, rfl⟩) (cancelTimer_step hcancel)
    · obtain ⟨timers, hcancel, rfl⟩ := Option.map_eq_some_iff.mp h
      exact .cancel hc (Or.inr ⟨‹_›, rfl⟩) (cancelTimer_step hcancel)
    · cases h
  | check c =>
    obtain ⟨k, hc, h⟩ := Option.bind_eq_some_iff.mp h
    split at h <;> cases h
    exact .check hc ‹_›
  | lockCond i =>
    obtain ⟨x, hx, h⟩ := Option.bind_eq_some_iff.mp h
    split at h <;> cases h
    exact .task hx _
  | test i =>
    obtain ⟨x, hx, h⟩ := Option.bind_eq_some_iff.mp h
    split at h <;> cases h
    exact .task hx _
  | flag i =>
    obtain ⟨x, hx, h⟩ := Option.bind_eq_some_iff.mp h
    split at h <;> cases h
    exact .flag hx ‹_›
  | cancelEventFind i =>
    obtain ⟨x, hx, h⟩ := Option.bind_eq_some_iff.mp h
    split at h
    · obtain ⟨events, hstep, rfl⟩ := events_of_map h
      exact .cancelEventFind hx hstep
    · cases h
  | cancelEventLock i rt =>
    obtain ⟨x, hx, h⟩ := Option.bind_eq_some_iff.mp h
    split at h
    · obtain ⟨events, hstep, rfl⟩ := events_of_map h
      exact .cancelEventLock hx hstep
    · cases h

/-! ## Calls and callbacks -/

/-- How a call goes on in a step. -/
inductive Move (s s' : System χ) (c : Nat) (k : Call) : Label χ → Call → Prop
  | stay (l : Label χ) : Move s s' c k l k
  | syscall (hpc : k.pc = .trying) {outcome : Outcome}
      (hnone : s.fds.kernel k.fd = none → outcome = .failed) :
      Move s s' c k (.syscall c outcome) (answer k outcome
        ((s.fds.kernel k.fd).isSome && s.opened k.fd != k.file))
  | construct (hpc : k.pc = .arming) (t : Nat) :
      Move s s' c k (.construct c t) { k with pc := .inserting }
  | insert (hpc : k.pc = .inserting) (t : Nat) :
      Move s s' c k (.insert c) { k with pc := .registering (some t) }
  | addEventLock {timer : Option Nat} (hpc : k.pc = .registering timer) {rt : Bool}
      (h : IOManager.Threads.Step s.events (.lock (.call c) rt) s'.events) :
      Move s s' c k (.addEventLock c rt)
        (if rt then { k with pc := .waiting timer, registrations := k.registrations + 1 }
        else { k with pc := .refused timer })
  | resume {timer : Option Nat} (hpc : k.pc = .waiting timer)
      (hin : s.events.mgr.scheduled.any (fun t => t.2.isCallAt c k.registrations) = true) :
      Move s s' c k (.resume c) { k with pc := .resumed timer }
  | cancel {timer : Option Nat} {p : CallPc}
      (hpc : k.pc = .resumed timer ∧ p = .checking ∨ k.pc = .refused timer ∧ p = .returned (-1)) :
      Move s s' c k (.cancel c) { k with pc := p }
  | check (hpc : k.pc = .checking) :
      Move s s' c k (.check c) { k with pc := if k.cancelled.isSome then .timedOut else .trying }
  | flag {i : Nat} {x : Expiry} (hx : x ∈ s.tasks) (hw : x.winfo = c) :
      Move s s' c k (.flag i) { k with cancelled := some x.timer }
  | wake {j : Nat} {rt : Bool} (h : IOManager.Threads.Step s.events (.lock (.desc j) rt) s'.events)
      (hin : (s'.events.mgr.scheduled.drop s.events.mgr.scheduled.length).any
        (fun t => t.2.isCall c) = true) :
      Move s s' c k (.cancelAllLock j rt) { k with woken := true }

theorem setCall_calls (s : System χ) (c : Nat) (k : Call) (c' : Nat) :
    (s.setCall c k).calls c' = if c' = c then some k else s.calls c' :=
  Function.update_apply ..

theorem Move.of_setCall {r : System χ} {c c' : Nat} {k k₁ k' : Call} (hc : s.calls c = some k)
    (hcalls : r.calls = s.calls) (hk' : (r.setCall c k₁).calls c' = some k')
    (hmove : Move s s' c k l k₁) : ∃ k, s.calls c' = some k ∧ Move s s' c' k l k' := by
  rw [setCall_calls] at hk'
  split at hk'
  · rename_i heq
    cases hk'
    rw [heq]
    exact ⟨k, hc, hmove⟩
  · rw [hcalls] at hk'
    exact ⟨k', hk', .stay l⟩

/-- A call of the state after a step is new, or a call before it that has gone on. -/
theorem Effect.of_call (h : Effect s l s') {c : Nat} {k' : Call} (hk' : s'.calls c = some k') :
    (s.calls c = none ∧ ∃ fd event timeout file,
      k' = { fd, event, timeout, began := s.timers.clock, file }) ∨
    ∃ k, s.calls c = some k ∧ Move s s' c k l k' := by
  have hstay : s.calls c = some k' → ∃ k, s.calls c = some k ∧ Move s s' c k l k' :=
    fun hk => ⟨k', hk, .stay l⟩
  cases h with
  | descriptors htimers hevents hcalls =>
    rw [hcalls] at hk'
    exact Or.inr (hstay hk')
  | tick | timer | pass | event | cancelAllFind | announce | addEventFind | addEventGrow | task
  | cancelEventFind | cancelEventLock => exact Or.inr (hstay hk')
  | @cancelAllLock j rt p events h =>
    obtain ⟨k, hk, heq⟩ := Option.map_eq_some_iff.mp hk'
    refine Or.inr ⟨k, hk, ?_⟩
    split at heq
    · rw [← heq]
      exact .wake h ‹_›
    · rw [← heq]
      exact .stay _
  | begin hc timeout =>
    rw [setCall_calls] at hk'
    split at hk'
    · rename_i heq
      cases hk'
      rw [heq]
      exact Or.inl ⟨hc, _, _, _, _, rfl⟩
    · exact Or.inr (hstay hk')
  | syscall hc hpc hnone => exact Or.inr (Move.of_setCall hc rfl hk' (.syscall hpc hnone))
  | construct hc hpc => exact Or.inr (Move.of_setCall hc rfl hk' (.construct hpc _))
  | insert hc hpc => exact Or.inr (Move.of_setCall hc rfl hk' (.insert hpc _))
  | addEventLock hc hpc h => exact Or.inr (Move.of_setCall hc rfl hk' (.addEventLock hpc h))
  | resume hc hpc hin => exact Or.inr (Move.of_setCall hc rfl hk' (.resume hpc hin))
  | cancel hc hpc => exact Or.inr (Move.of_setCall hc rfl hk' (.cancel hpc))
  | check hc hpc => exact Or.inr (Move.of_setCall hc rfl hk' (.check hpc))
  | flag hx hc =>
    exact Or.inr (Move.of_setCall hc rfl hk' (.flag (List.mem_of_getElem? hx) rfl))

theorem Effect.calls_isSome (h : Effect s l s') {c : Nat} (hc : (s.calls c).isSome) :
    (s'.calls c).isSome := by
  have hset : ∀ (r : System χ) (c₁ : Nat) (k : Call), r.calls = s.calls →
      ((r.setCall c₁ k).calls c).isSome := by
    intro r c₁ k hr
    rw [setCall_calls]
    split
    · rfl
    · rw [hr]
      exact hc
  cases h with
  | descriptors htimers hevents hcalls => rwa [hcalls]
  | tick | timer | pass | event | cancelAllFind | announce | addEventFind | addEventGrow | task
  | cancelEventFind | cancelEventLock => exact hc
  | @cancelAllLock j rt p events =>
    change (wake (events.mgr.scheduled.drop s.events.mgr.scheduled.length) s.calls c).isSome
    rwa [wake, Option.isSome_map]
  | begin | syscall | construct | insert | addEventLock | resume | cancel | check | flag =>
    exact hset _ _ _ rfl

/-- What a call never changes. -/
structure Same (k k' : Call) : Prop where
  fd : k'.fd = k.fd
  event : k'.event = k.event
  timeout : k'.timeout = k.timeout
  began : k'.began = k.began

theorem answer_same (k : Call) (outcome : Outcome) (other : Bool) :
    Same k (answer k outcome other) := by
  cases outcome <;> exact ⟨rfl, rfl, rfl, rfl⟩

theorem Move.same {c : Nat} {k k' : Call} (h : Move s s' c k l k') : Same k k' := by
  cases h with
  | syscall => exact answer_same ..
  | addEventLock =>
    split <;> exact ⟨rfl, rfl, rfl, rfl⟩
  | _ => exact ⟨rfl, rfl, rfl, rfl⟩

theorem Effect.call (h : Effect s l s') {c : Nat} {k : Call} (hc : s.calls c = some k) :
    ∃ k', s'.calls c = some k' ∧ Move s s' c k l k' := by
  obtain ⟨k', hk'⟩ := Option.isSome_iff_exists.mp (h.calls_isSome (hc ▸ rfl : (s.calls c).isSome))
  rcases h.of_call hk' with ⟨hnone, -⟩ | ⟨k₁, hk₁, hmove⟩
  · rw [hc] at hnone
    cases hnone
  · rw [hc] at hk₁
    cases hk₁
    exact ⟨k', hk', hmove⟩

theorem of_mem_setTask {i : Nat} {x y : Expiry} {p : TaskPc} (hx : s.tasks[i]? = some x)
    (hy : y ∈ s.tasks.set i { x with pc := p }) :
    ∃ x ∈ s.tasks, y.timer = x.timer ∧ y.weak_cond = x.weak_cond ∧ y.winfo = x.winfo := by
  rcases List.mem_or_eq_of_mem_set hy with hy | rfl
  · exact ⟨y, hy, rfl, rfl, rfl⟩
  · exact ⟨x, List.mem_of_getElem? hx, rfl, rfl, rfl⟩

/-- A callback of the state after a step is there before it, or comes from a pass. -/
theorem Effect.of_task (h : Effect s l s') {x' : Expiry} (hx' : x' ∈ s'.tasks) :
    (∃ x ∈ s.tasks, x'.timer = x.timer ∧ x'.weak_cond = x.weak_cond ∧ x'.winfo = x.winfo) ∨
    ∃ i now_timer now_ms m expired cbs, l = .pass i now_timer ∧
      s.timers.pc (.worker i) = .expiring now_ms ∧
      s.timers.mgr.expirePass now_ms now_timer = .ok (m, expired, cbs) ∧
      s'.expired = s.expired ++ expired.map (fun t => (t, now_ms)) ∧ x' ∈ collect expired cbs := by
  have hstay : x' ∈ s.tasks →
      ∃ x ∈ s.tasks, x'.timer = x.timer ∧ x'.weak_cond = x.weak_cond ∧ x'.winfo = x.winfo :=
    fun hx => ⟨x', hx, rfl, rfl, rfl⟩
  cases h with
  | descriptors htimers hevents hcalls htasks =>
    rw [htasks] at hx'
    exact Or.inl (hstay hx')
  | @pass i now_timer now_ms hpc m expired cbs hrun =>
    rcases List.mem_append.mp hx' with hx' | hx'
    · exact Or.inl (hstay hx')
    · exact Or.inr ⟨i, now_timer, now_ms, m, expired, cbs, rfl, hpc, hrun, rfl, hx'⟩
  | task hx | flag hx | cancelEventFind hx | cancelEventLock hx =>
    exact Or.inl (of_mem_setTask hx hx')
  | _ => exact Or.inl (hstay hx')

end Captain.System
