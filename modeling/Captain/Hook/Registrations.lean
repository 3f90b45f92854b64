import Captain.Hook.Steps

/-!
# The registrations of the suspended calls

A call registers its event with its fiber, and waits. `Ledger` is the invariant: each registration
of a call is known at most once, be it stored in a context or given to the scheduler, and the call
of a stored one is waiting in it.
-/

namespace Captain.System

open IOManager Transition

variable {χ : Type} {s s' : System χ} {l : Label χ}

/-- The event operations of the model. -/
abbrev EventOp (χ : Type) := IOManager.Op Unit (Lambda χ) (Waiter χ)

abbrev EventTask (χ : Type) := Unit × Task (Lambda χ) (Waiter χ)

abbrev EventLabel (χ : Type) := IOManager.Label Unit (Lambda χ) (Waiter χ) Agent

/-- How often the registration `n` of the call `c` is among the tasks. -/
def times (c n : Nat) (m : Multiset (EventTask χ)) : Nat := m.countP fun t => t.2.isCallAt c n

theorem times_add (c n : Nat) (m m' : Multiset (EventTask χ)) :
    times c n (m + m') = times c n m + times c n m' := Multiset.countP_add ..

theorem times_mono {m m' : Multiset (EventTask χ)} (h : m ≤ m') (c n : Nat) :
    times c n m ≤ times c n m' := Multiset.countP_le_of_le _ h

theorem times_le_card (c n : Nat) (m : Multiset (EventTask χ)) : times c n m ≤ m.card :=
  Multiset.countP_le_card ..

theorem times_pos {c n : Nat} {m : Multiset (EventTask χ)} :
    0 < times c n m ↔ ∃ t ∈ m, t.2.isCallAt c n = true := Multiset.countP_pos

theorem times_eq_zero {c n : Nat} {m : Multiset (EventTask χ)}
    (h : ¬∃ t ∈ m, t.2.isCallAt c n = true) : times c n m = 0 :=
  Nat.eq_zero_of_not_pos fun hpos => h (times_pos.mp hpos)

/-- The operation of an agent: a call adds its event, and no other agent adds an event of a call. -/
def OpOk (s : System χ) : Agent → EventOp χ → Prop
  | .call c, op => ∃ k timer, s.calls c = some k ∧ k.pc = .registering timer ∧ op = addEvent c k
  | _, op => ∀ t ∈ op.registers, ∀ c n, t.2.isCallAt c n = false

structure Ledger (s : System χ) (S : Nat → Slots Unit (Lambda χ) (Waiter χ)) : Prop where
  inv : Threads.Inv s.events S
  once : ∀ c n, times c n (s.events.known S) ≤ 1
  stamp : ∀ t ∈ s.events.known S, ∀ c n, t.2.isCallAt c n = true →
    ∃ k, s.calls c = some k ∧ n ≤ k.registrations
  waiting : ∀ t ∈ pending s.events.mgr.next S, ∀ c n, t.2.isCallAt c n = true →
    ∃ k timer, s.calls c = some k ∧ k.pc = .waiting timer ∧ k.registrations = n
  op : ∀ j op, (s.events.pc j).op = some op → OpOk s j op

/-! ## What a step does to the events -/

/-- What the step tells of the step of the events in it: a call that has registered its event is
waiting. -/
def Tells (s s' : System χ) : EventLabel χ → Prop
  | .find j op => OpOk s j op
  | .lock (.call c) true => ∃ k k' timer, s.calls c = some k ∧ s'.calls c = some k' ∧
    k'.pc = .waiting timer ∧ k'.registrations = k.registrations + 1
  | _ => True

theorem newTask_isCallAt {fiber : Waiter χ} (h : fiber.isOther = true) (cb : Option (Lambda χ))
    (c n : Nat) : (newTask cb fiber).isCallAt c n = false := by
  cases cb with
  | some cb => rfl
  | none =>
    cases fiber with
    | call => cases h
    | other => rfl

theorem Effect.events (h : Effect s l s') : (s'.events = s.events) ∨
    ∃ l', Threads.Step s.events l' s'.events ∧ Tells s s' l' := by
  cases h with
  | descriptors htimers hevents => exact Or.inl hevents
  | @event l' hl events hstep =>
    refine Or.inr ⟨l', hstep, ?_⟩
    unfold foreignEvent at hl
    split at hl
    · rename_i i fd e cb env
      intro t ht c n
      rw [Op.registers, Multiset.mem_coe, Option.mem_toList, Option.map_eq_some_iff] at ht
      obtain ⟨_, -, rfl⟩ := ht
      exact newTask_isCallAt hl cb c n
    · rename_i i op hop
      intro t ht
      cases op with
      | addEvent fd e cb env => exact (hop _ _ _ _ rfl).elim
      | _ => cases ht
    · trivial
    · trivial
    · trivial
    · trivial
    · cases hl
  | cancelAllFind hstep => exact Or.inr ⟨_, hstep, fun t ht => by cases ht⟩
  | cancelAllLock hstep => exact Or.inr ⟨_, hstep, trivial⟩
  | addEventFind hc hpc hstep => exact Or.inr ⟨_, hstep, _, _, hc, hpc, rfl⟩
  | addEventGrow hstep => exact Or.inr ⟨_, hstep, trivial⟩
  | @addEventLock c k hc timer hpc rt events hstep =>
    refine Or.inr ⟨_, hstep, ?_⟩
    cases rt with
    | false => trivial
    | true => exact ⟨k, _, timer, hc, (setCall_calls ..).trans (if_pos rfl), rfl, rfl⟩
  | cancelEventFind hx hstep => exact Or.inr ⟨_, hstep, fun t ht => by cases ht⟩
  | cancelEventLock hx hstep => exact Or.inr ⟨_, hstep, trivial⟩
  | _ => exact Or.inl rfl

/-! ## The operation of an agent -/

theorem lock_op {s s' : Events χ} {j : Agent} {rt : Bool}
    (h : Threads.Step s (.lock j rt) s') : (s'.pc j).op = none := by
  cases h with
  | lock hpc hrun =>
    rw [Threads.goto_pc, if_pos rfl]
    rfl

/-- While the operation of a call goes on, the call stays where it is. -/
theorem OpOk.of_effect (h : Effect s l s') {j : Agent} {op : EventOp χ} (hok : OpOk s j op)
    (hop : (s'.events.pc j).op = some op) : OpOk s' j op := by
  cases j with
  | call c =>
    obtain ⟨k, timer, hk, hpc, rfl⟩ := hok
    obtain ⟨k', hk', hmove⟩ := h.call hk
    have hsame := hmove.same
    have hstill : k'.pc = k.pc → k'.registrations = k.registrations →
        OpOk s' (.call c) (addEvent c k) := by
      intro hpc' hreg
      refine ⟨k', timer, hk', hpc'.trans hpc, ?_⟩
      rw [addEvent, addEvent, hsame.fd, hsame.event, hreg]
    cases hmove with
    | stay | flag | wake => exact hstill rfl rfl
    | addEventLock hpc₁ hlock =>
      rw [lock_op hlock] at hop
      cases hop
    | cancel hpc₁ =>
      rw [hpc] at hpc₁
      rcases hpc₁ with ⟨hpc₁, -⟩ | ⟨hpc₁, -⟩ <;> cases hpc₁
    | syscall hpc₁ | construct hpc₁ | insert hpc₁ | resume hpc₁ | check hpc₁ =>
      rw [hpc] at hpc₁
      cases hpc₁
  | _ => exact hok

theorem Effect.op (h : Effect s l s') (hok : ∀ j op, (s.events.pc j).op = some op → OpOk s j op)
    (j : Agent) (op : EventOp χ) (hop : (s'.events.pc j).op = some op) : OpOk s' j op := by
  apply OpOk.of_effect h ?_ hop
  rcases h.events with heq | ⟨l', hstep, htells⟩
  · rw [heq] at hop
    exact hok j op hop
  · rcases hstep.op hop with hold | rfl
    · exact hok j op hold
    · exact htells

/-! ## What a step registers -/

theorem card_registers (s : System χ) (l : EventLabel χ) : (s.events.registers l).card ≤ 1 := by
  unfold Threads.registers
  split
  · rename_i j
    cases (s.events.pc j).op with
    | none => exact Nat.zero_le 1
    | some op =>
      show op.registers.card ≤ 1
      unfold Op.registers
      split
      · rw [Multiset.coe_card, Option.length_toList]
        split <;> omega
      · exact Nat.zero_le 1
  · exact Nat.zero_le 1

/-- A step that registers a call is its section under the lock. -/
theorem Ledger.registers {S : Nat → Slots Unit (Lambda χ) (Waiter χ)} (h : Ledger s S)
    {l : EventLabel χ} {t : EventTask χ} (ht : t ∈ s.events.registers l)
    {c n : Nat} (hcall : t.2.isCallAt c n = true) :
    ∃ k timer, l = .lock (.call c) true ∧ s.calls c = some k ∧ k.pc = .registering timer ∧
      n = k.registrations + 1 := by
  unfold Threads.registers at ht
  split at ht
  · rename_i j
    cases hop : (s.events.pc j).op with
    | none =>
      rw [hop] at ht
      cases ht
    | some op =>
      rw [hop] at ht
      have hok := h.op j op hop
      cases j with
      | call c' =>
        obtain ⟨k, timer, hk, hpc, rfl⟩ := hok
        obtain rfl := List.mem_singleton.mp ht
        simp only [newTask, Task.isCallAt, Bool.and_eq_true, decide_eq_true_eq] at hcall
        obtain ⟨rfl, rfl⟩ := hcall
        exact ⟨k, timer, rfl, hk, hpc, rfl⟩
      | task | desc | worker =>
        rw [hok t ht c n] at hcall
        cases hcall
  · cases ht

/-! ## The step lemma -/

/-- A registration that is known once is not both given away and stored. -/
theorem apart_of_once {events : Events χ}
    {S : Nat → Slots Unit (Lambda χ) (Waiter χ)} {c n : Nat}
    (honce : times c n (events.known S) ≤ 1) {t u : EventTask χ} (ht : t ∈ events.mgr.scheduled)
    (hu : u ∈ pending events.mgr.next S) (htc : t.2.isCallAt c n = true) :
    u.2.isCallAt c n = false := by
  rw [← Bool.not_eq_true]
  intro huc
  have hgiven : 0 < times c n (events.mgr.scheduled : Multiset (EventTask χ)) :=
    times_pos.mpr ⟨t, ht, htc⟩
  have hstored : 0 < times c n (pending events.mgr.next S) := times_pos.mpr ⟨u, hu, huc⟩
  rw [Threads.known, times_add] at honce
  omega

theorem Move.registrations_le {c : Nat} {k k' : Call} (h : Move s s' c k l k') :
    k.registrations ≤ k'.registrations := by
  cases h with
  | @syscall hpc outcome => cases outcome <;> exact Nat.le_refl _
  | addEventLock =>
    split
    · exact Nat.le_succ _
    · exact Nat.le_refl _
  | _ => exact Nat.le_refl _

/-- A call goes on from waiting when its registration is given to the scheduler. -/
theorem Move.waiting {c : Nat} {k k' : Call} (h : Move s s' c k l k') {timer : Option Nat}
    (hpc : k.pc = .waiting timer)
    (hnot : ∀ t ∈ s.events.mgr.scheduled, t.2.isCallAt c k.registrations = false) :
    k'.pc = .waiting timer ∧ k'.registrations = k.registrations := by
  cases h with
  | stay | flag | wake => exact ⟨hpc, rfl⟩
  | resume hpc₁ hin =>
    obtain ⟨t, ht, htc⟩ := List.any_eq_true.mp hin
    rw [hnot t ht] at htc
    cases htc
  | cancel hpc₁ =>
    rw [hpc] at hpc₁
    rcases hpc₁ with ⟨hpc₁, -⟩ | ⟨hpc₁, -⟩ <;> cases hpc₁
  | syscall hpc₁ | construct hpc₁ | insert hpc₁ | addEventLock hpc₁ | check hpc₁ =>
    rw [hpc] at hpc₁
    cases hpc₁

theorem Ledger.of_known {S S' : Nat → Slots Unit (Lambda χ) (Waiter χ)} (h : Ledger s S)
    (heff : Effect s l s') (hinv : Threads.Inv s'.events S')
    (hpre : s.events.mgr.scheduled <+: s'.events.mgr.scheduled)
    {more : Multiset (EventTask χ)}
    (hlaw : s'.events.known S' ≤ s.events.known S + more) (hcard : more.card ≤ 1)
    (hmore : ∀ t ∈ more, ∀ c n, t.2.isCallAt c n = true → ∃ k k' timer, s.calls c = some k ∧
      n = k.registrations + 1 ∧ s'.calls c = some k' ∧ k'.pc = .waiting timer ∧
      k'.registrations = n) : Ledger s' S' := by
  have hmem : ∀ t ∈ s'.events.known S', t ∈ s.events.known S ∨ t ∈ more :=
    fun t ht => Multiset.mem_add.mp (Multiset.mem_of_le hlaw ht)
  have honce : ∀ c n, times c n (s'.events.known S') ≤ 1 := by
    intro c n
    have hle := times_mono hlaw c n
    rw [times_add] at hle
    by_cases hnew : ∃ t ∈ more, t.2.isCallAt c n = true
    · -- the number of the registration is new
      obtain ⟨t, ht, htc⟩ := hnew
      obtain ⟨k, k', timer, hk, hn, -⟩ := hmore t ht c n htc
      have hold : times c n (s.events.known S) = 0 := by
        apply times_eq_zero
        rintro ⟨u, hu, huc⟩
        obtain ⟨k₁, hk₁, hn₁⟩ := h.stamp u hu c n huc
        rw [hk] at hk₁
        cases hk₁
        omega
      have := times_le_card c n more
      omega
    · have := times_eq_zero hnew
      have := h.once c n
      omega
  refine ⟨hinv, honce, ?_, ?_, heff.op h.op⟩
  · intro t ht c n htc
    rcases hmem t ht with ht | ht
    · obtain ⟨k, hk, hn⟩ := h.stamp t ht c n htc
      obtain ⟨k', hk', hmove⟩ := heff.call hk
      exact ⟨k', hk', Nat.le_trans hn hmove.registrations_le⟩
    · obtain ⟨k, k', timer, -, -, hk', -, hn⟩ := hmore t ht c n htc
      exact ⟨k', hk', hn.ge⟩
  · intro t ht c n htc
    rcases hmem t (Multiset.mem_add.mpr (Or.inr ht)) with hold | hnew
    · rcases Multiset.mem_add.mp hold with hgiven | hstored
      · rw [apart_of_once (honce c n) (hpre.subset hgiven) ht htc] at htc
        cases htc
      · obtain ⟨k, timer, hk, hpc, rfl⟩ := h.waiting t hstored c n htc
        obtain ⟨k', hk', hmove⟩ := heff.call hk
        have hnot : ∀ u ∈ s.events.mgr.scheduled, u.2.isCallAt c k.registrations = false := by
          intro u hu
          rw [← Bool.not_eq_true]
          intro huc
          rw [apart_of_once (h.once c _) hu hstored huc] at htc
          cases htc
        obtain ⟨hpc', hreg⟩ := hmove.waiting hpc hnot
        exact ⟨k', timer, hk', hpc', hreg⟩
    · obtain ⟨k, k', timer, -, -, hk', hpc', hn⟩ := hmore t hnew c n htc
      exact ⟨k', timer, hk', hpc', hn⟩

/-- **Step lemma.** -/
theorem Effect.ledger (heff : Effect s l s') {S : Nat → Slots Unit (Lambda χ) (Waiter χ)}
    (h : Ledger s S) : ∃ S', Ledger s' S' := by
  rcases heff.events with heq | ⟨l', hstep, htells⟩
  · have hlaw : s'.events.known S ≤ s.events.known S + 0 := by rw [heq, add_zero]
    exact ⟨S, h.of_known heff (heq ▸ h.inv) (heq ▸ List.prefix_rfl) hlaw (Nat.zero_le 1) nofun⟩
  · obtain ⟨S', hinv, hpre, hlaw⟩ := hstep.sends h.inv
    refine ⟨S', h.of_known heff hinv hpre hlaw (card_registers s l') ?_⟩
    intro t ht c n htc
    obtain ⟨k, timer, rfl, hk, hpc, hn⟩ := h.registers ht htc
    obtain ⟨k₁, k', timer', hk₁, hk', hpc', hreg⟩ := htells
    rw [hk] at hk₁
    cases hk₁
    exact ⟨k, k', timer', hk, hn, hk', hpc', hreg.trans hn.symm⟩

theorem ledger_init (now : UInt64) (kernel : Kernel) :
    Ledger (init now kernel : System χ) (fun _ _ => none) := by
  have hpending : ∀ n, pending n (fun _ _ => none : Nat → Slots Unit (Lambda χ) (Waiter χ)) = 0 :=
    fun n => Finset.sum_eq_zero fun _ _ => Slots.tasks_none
  have hknown : (init now kernel : System χ).events.known (fun _ _ => none) = 0 := by
    rw [Threads.known, hpending, add_zero]
    rfl
  refine ⟨Threads.inv_init, fun c n => ?_, fun t ht => ?_, fun t ht => ?_, fun j op hop => ?_⟩
  · rw [hknown]
    exact Nat.zero_le 1
  · rw [hknown] at ht
    cases ht
  · rw [hpending] at ht
    cases ht
  · cases hop

theorem run_ledger {now : UInt64} {kernel : Kernel} {ls : List (Label χ)} {s : System χ}
    (h : Run Step (init now kernel) ls s) : ∃ S, Ledger s S :=
  h.invariant (I := fun s => ∃ S, Ledger s S) (fun _ _ _ ⟨_, hS⟩ hst => hst.effect.ledger hS)
    ⟨_, ledger_init now kernel⟩

/-- Each registration is given to the scheduler at most once. -/
theorem Ledger.scheduled {S : Nat → Slots Unit (Lambda χ) (Waiter χ)} (h : Ledger s S) (c n : Nat) :
    s.events.mgr.scheduled.countP (fun t => t.2.isCallAt c n) ≤ 1 := by
  have hle := times_mono (Multiset.le_add_right (s.events.mgr.scheduled : Multiset (EventTask χ))
    (pending s.events.mgr.next S)) c n
  have hcount : times c n (s.events.mgr.scheduled : Multiset (EventTask χ)) =
      s.events.mgr.scheduled.countP fun t => t.2.isCallAt c n := by
    rw [times, Multiset.coe_countP]
    simp
  exact hcount ▸ Nat.le_trans hle (h.once c n)

end Captain.System
