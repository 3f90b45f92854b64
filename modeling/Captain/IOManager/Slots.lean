import Captain.IOManager.Model
import Mathlib.Tactic.Set

/-!
# The registrations behind the contexts

What a context is for is to keep, for each event, at most one registration: the scheduler and
the task it is to be given. `Slots` is that map, and `FdContext.ofSlots` is how a context stores
it: the event bit is set exactly when there is a registration, and the event context of a clear
bit is empty. `Ok m S` says that all contexts of the manager store the registrations `S`.

The sections of the operations, run on contexts that store registrations, go through and change
the registrations as their names say.
-/

namespace Captain

variable {σ φ ψ : Type}

/-- The registrations on one descriptor. -/
abbrev Slots (σ φ ψ : Type) := Event → Option (σ × Task φ ψ)

/-- How an event context stores a registration. -/
def EventContext.ofSlot : Option (σ × Task φ ψ) → EventContext σ φ ψ
  | none => {}
  | some (s, .cb cb) => { scheduler := some s, cb := some cb }
  | some (s, .fiber fiber) => { scheduler := some s, fiber := some fiber }

def eventBits (r w : Bool) : UInt32 :=
  (if r then Event.READ.bit else 0) ||| (if w then Event.WRITE.bit else 0)

/-- The set of events that satisfy `p`. -/
def eventSet (p : Event → Bool) : UInt32 := eventBits (p .READ) (p .WRITE)

/-- The event bits of the registrations. -/
def Slots.events (r : Slots σ φ ψ) : UInt32 := eventSet fun e => (r e).isSome

/-- What `epoll` is told about a descriptor with these registrations. -/
def Slots.interest (r : Slots σ φ ψ) : Option UInt32 :=
  if r.events = 0 then none else some (EPOLLET ||| r.events)

/-- The registrations that are left when those on the events of `p` are taken out. -/
def Slots.without (r : Slots σ φ ψ) (p : Event → Bool) : Slots σ φ ψ :=
  fun e => if p e then none else r e

/-- The registrations on the events of `p`, in the order of the source. -/
def Slots.taken (r : Slots σ φ ψ) (p : Event → Bool) : List (σ × Task φ ψ) :=
  (if p .READ then (r .READ).toList else []) ++ (if p .WRITE then (r .WRITE).toList else [])

def FdContext.ofSlots (fd : Nat) (r : Slots σ φ ψ) : FdContext σ φ ψ where
  read := .ofSlot (r .READ)
  write := .ofSlot (r .WRITE)
  fd := fd
  events := r.events

/-! ## Bits -/

theorem eventBits_and : ∀ r w r' w',
    eventBits r w &&& eventBits r' w' = eventBits (r && r') (w && w') := by decide

theorem eventBits_or : ∀ r w r' w',
    eventBits r w ||| eventBits r' w' = eventBits (r || r') (w || w') := by decide

theorem eventBits_and_not : ∀ r w r' w',
    eventBits r w &&& ~~~eventBits r' w' = eventBits (r && !r') (w && !w') := by decide

theorem eventBits_eq_zero : ∀ r w, eventBits r w = 0 ↔ r = false ∧ w = false := by decide

theorem eventSet_and (p q : Event → Bool) :
    eventSet p &&& eventSet q = eventSet fun e => p e && q e := eventBits_and ..

theorem eventSet_or (p q : Event → Bool) :
    eventSet p ||| eventSet q = eventSet fun e => p e || q e := eventBits_or ..

theorem eventSet_and_not (p q : Event → Bool) :
    eventSet p &&& ~~~eventSet q = eventSet fun e => p e && !q e := eventBits_and_not ..

theorem eventSet_eq_zero (p : Event → Bool) : eventSet p = 0 ↔ ∀ e, p e = false := by
  rw [eventSet, eventBits_eq_zero]
  exact ⟨fun h e => by cases e; exacts [h.1, h.2], fun h => ⟨h _, h _⟩⟩

theorem bit_eq_eventSet (e : Event) : e.bit = eventSet fun e' => e' == e := by cases e <;> rfl

theorem eventSet_and_bit (p : Event → Bool) (e : Event) :
    eventSet p &&& e.bit = 0 ↔ p e = false := by
  rw [bit_eq_eventSet, eventSet_and, eventSet_eq_zero]
  constructor
  · intro h
    simpa using h e
  · intro h e'
    by_cases he : e' = e
    · rw [he, h]
      rfl
    · simp [he]

/-- `idle` makes a set of events of every mask. -/
theorem realEvents_eq (events : UInt32) : ∃ p, IOManager.realEvents events = eventSet p := by
  let mask := if events &&& (EPOLLERR ||| EPOLLHUP) ≠ 0 then events ||| EPOLLIN ||| EPOLLOUT
    else events
  -- the bits of the events are those of `EPOLLIN` and `EPOLLOUT`
  refine ⟨fun e => decide (mask &&& e.bit ≠ 0), ?_⟩
  simp only [IOManager.realEvents, eventSet, eventBits, decide_eq_true_eq]
  rfl

theorem Slots.events_bit (r : Slots σ φ ψ) (e : Event) : r.events &&& e.bit = 0 ↔ r e = none := by
  rw [Slots.events, eventSet_and_bit, Option.isSome_eq_false_iff, Option.isNone_iff_eq_none]

theorem Slots.events_eq_zero (r : Slots σ φ ψ) : r.events = 0 ↔ ∀ e, r e = none := by
  simp only [Slots.events, eventSet_eq_zero, Option.isSome_eq_false_iff, Option.isNone_iff_eq_none]

theorem Slots.events_insert (r : Slots σ φ ψ) (e : Event) (t : σ × Task φ ψ) :
    r.events ||| e.bit = Slots.events (Function.update r e (some t)) := by
  rw [bit_eq_eventSet, Slots.events, Slots.events, eventSet_or]
  congr 1
  funext e'
  by_cases h : e' = e <;> simp [h]

theorem Slots.events_without (r : Slots σ φ ψ) (p : Event → Bool) :
    r.events &&& ~~~eventSet p = (r.without p).events := by
  rw [Slots.events, Slots.events, eventSet_and_not]
  congr 1
  funext e
  cases hp : p e <;> simp [Slots.without, hp]

theorem Slots.taken_of_none {r : Slots σ φ ψ} {p : Event → Bool}
    (h : ∀ e, p e = true → r e = none) : r.taken p = [] := by
  have hside : ∀ e, (if p e = true then (r e).toList else []) = [] := by
    intro e
    split
    · rw [h e ‹_›]
      rfl
    · rfl
  rw [Slots.taken, hside, hside, List.append_nil]

theorem Slots.without_single (r : Slots σ φ ψ) (e : Event) :
    r.without (fun e' => e' == e) = Function.update r e none := by
  funext e'
  by_cases h : e' = e <;> simp [Slots.without, h]

theorem Slots.events_erase (r : Slots σ φ ψ) (e : Event) :
    r.events &&& ~~~e.bit = Slots.events (Function.update r e none) := by
  rw [bit_eq_eventSet, r.events_without, r.without_single]

theorem Slots.interest_insert (r : Slots σ φ ψ) (e : Event) (t : σ × Task φ ψ) :
    Slots.interest (Function.update r e (some t)) = some (EPOLLET ||| r.events ||| e.bit) := by
  have hne : ¬Slots.events (Function.update r e (some t)) = 0 := by
    rw [Slots.events_eq_zero]
    intro h
    have := h e
    simp at this
  rw [Slots.interest, if_neg hne, UInt32.or_assoc, r.events_insert e t]

/-- The choice of `EPOLL_CTL_MOD` or `EPOLL_CTL_DEL` tells `epoll` the registrations left. -/
theorem Slots.interest_eq (r : Slots σ φ ψ) :
    (if (if r.events ≠ 0 then EpollOp.MOD else .DEL) = .DEL then none
      else some (EPOLLET ||| r.events)) = r.interest := by
  rw [Slots.interest]
  by_cases h : r.events = 0 <;> simp [h]

/-! ## One context -/

namespace FdContext

theorem ofSlots_none (fd : Nat) :
    (ofSlots fd fun _ => none : FdContext σ φ ψ) = { fd := fd } := by
  have hev : Slots.events (fun _ => none : Slots σ φ ψ) = 0 :=
    (Slots.events_eq_zero _).mpr fun _ => rfl
  rw [ofSlots, hev]
  rfl

theorem getContext_ofSlots (fd : Nat) (r : Slots σ φ ψ) (ev : UInt32) (e : Event) :
    getContext { ofSlots fd r with events := ev } e = .ofSlot (r e) := by
  cases e <;> rfl

theorem setContext_ofSlots (fd : Nat) (r : Slots σ φ ψ) (e : Event) (o : Option (σ × Task φ ψ)) :
    setContext { ofSlots fd r with events := Slots.events (Function.update r e o) } e (.ofSlot o) =
      ofSlots fd (Function.update r e o) := by
  cases e <;> simp [setContext, ofSlots]

theorem triggerEvent_ofSlots (fd : Nat) {r : Slots σ φ ψ} {e : Event} {t : σ × Task φ ψ}
    (h : r e = some t) :
    (ofSlots fd r).triggerEvent e = .ok (ofSlots fd (Function.update r e none), some t) := by
  have hbit : ¬(ofSlots fd r).events &&& e.bit = 0 := by
    change ¬r.events &&& e.bit = 0
    rw [r.events_bit, h]
    simp
  have hset := setContext_ofSlots fd r e none
  rw [← r.events_erase] at hset
  simp only [triggerEvent, if_neg hbit, getContext_ofSlots, h]
  obtain ⟨s, cb | fiber⟩ := t
  · exact congrArg (fun c => Except.ok (c, some (s, Task.cb cb))) hset
  · exact congrArg (fun c => Except.ok (c, some (s, Task.fiber fiber))) hset

theorem triggerEvent_none (fd : Nat) {r : Slots σ φ ψ} {e : Event} (h : r e = none) :
    (ofSlots fd r).triggerEvent e = .error .assertTrigger :=
  if_pos ((r.events_bit e).mpr h)

end FdContext

/-! ## The sections of the operations -/

namespace IOManager

/-- All contexts store their registrations. -/
def Ok (m : IOManager σ φ ψ) (S : Nat → Slots σ φ ψ) : Prop :=
  ∀ a, m.heap a = .ofSlots (m.heap a).fd (S a)

/-- The context at `a` gets new registrations, and tasks go out. -/
def put (m : IOManager σ φ ψ) (a : Nat) (r : Slots σ φ ψ) (count : Int)
    (out : List (σ × Task φ ψ)) : IOManager σ φ ψ :=
  { m with
    heap := Function.update m.heap a (.ofSlots (m.heap a).fd r)
    m_pendingEventCount := m.m_pendingEventCount + count
    scheduled := m.scheduled ++ out }

/-- The same, and `epoll` is told the new registrations. -/
def store (m : IOManager σ φ ψ) (a fd : Nat) (r : Slots σ φ ψ) (count : Int)
    (out : List (σ × Task φ ψ)) : IOManager σ φ ψ :=
  { m.put a r count out with interest := Function.update m.interest fd r.interest }

theorem put_eq {m : IOManager σ φ ψ} {a fd₀ : Nat} {r₀ : Slots σ φ ψ}
    (hc : m.heap a = .ofSlots fd₀ r₀) (r : Slots σ φ ψ) (count : Int)
    (out : List (σ × Task φ ψ)) : m.put a r count out =
      { m with
        heap := Function.update m.heap a (.ofSlots fd₀ r)
        m_pendingEventCount := m.m_pendingEventCount + count
        scheduled := m.scheduled ++ out } := by
  rw [put, hc]
  rfl

theorem put_put (m : IOManager σ φ ψ) (a : Nat) (r r' : Slots σ φ ψ) (count count' : Int)
    (out out' : List (σ × Task φ ψ)) : (m.put a r count out).put a r' count' out' =
      m.put a r' (count + count') (out ++ out') := by
  simp only [put, Function.update_self, Function.update_idem, List.append_assoc, Int.add_assoc]
  rfl

theorem Ok.put_self {m : IOManager σ φ ψ} {S : Nat → Slots σ φ ψ} (h : Ok m S) (a : Nat) :
    m.put a (S a) 0 [] = m := by
  rw [put, ← h a, Function.update_eq_self, Int.add_zero, List.append_nil]

theorem Ok.put {m : IOManager σ φ ψ} {S : Nat → Slots σ φ ψ} (h : Ok m S) (a : Nat)
    (r : Slots σ φ ψ) (count : Int) (out : List (σ × Task φ ψ)) :
    Ok (m.put a r count out) (Function.update S a r) := by
  intro b
  unfold IOManager.put
  by_cases hb : b = a
  · subst hb
    simp [FdContext.ofSlots]
  · simp only [Function.update_of_ne hb]
    exact h b

theorem Ok.store {m : IOManager σ φ ψ} {S : Nat → Slots σ φ ψ} (h : Ok m S) (a fd : Nat)
    (r : Slots σ φ ψ) (count : Int) (out : List (σ × Task φ ψ)) :
    Ok (m.store a fd r count out) (Function.update S a r) := h.put a r count out

/-- The registrations that `addEvent` makes. -/
def newTask (cb : Option φ) (fiber : ψ) : Task φ ψ :=
  match cb with
  | some cb => .cb cb
  | none => .fiber fiber

section

variable {m : IOManager σ φ ψ} {S : Nat → Slots σ φ ψ} (h : Ok m S) {a : Nat} {e : Event}
include h

theorem addLocked_ok (he : S a e = none) (fd : Nat) (cb : Option φ) {env : Env σ ψ} {s : σ}
    (hs : env.scheduler = some s) (hexec : env.exec = true) :
    m.addLocked a fd e cb env true =
      .ok (m.store a fd (Function.update (S a) e (some (s, newTask cb env.fiber))) 1 [], 0) := by
  obtain ⟨fd₀, hc⟩ : ∃ fd₀, m.heap a = .ofSlots fd₀ (S a) := ⟨_, h a⟩
  have hbit : ¬(FdContext.ofSlots fd₀ (S a)).events &&& e.bit ≠ 0 := by
    rw [ne_eq, not_not]
    exact ((S a).events_bit e).mpr he
  have hop : (if (FdContext.ofSlots fd₀ (S a)).events ≠ 0 then EpollOp.MOD else .ADD) ≠ .DEL := by
    split <;> simp
  have hset := FdContext.setContext_ofSlots fd₀ (S a) e (some (s, newTask cb env.fiber))
  rw [← (S a).events_insert] at hset
  have hint := (S a).interest_insert e (s, newTask cb env.fiber)
  have hempty : EventContext.ofSlot (S a e) = {} := by rw [he]; rfl
  simp only [addLocked, hc, if_neg hbit, FdContext.getContext_ofSlots, hempty, epollCtl, if_neg hop]
  rw [store, put_eq hc, hint, ← hset, List.append_nil]
  cases cb with
  | some cb =>
    simp only [hs]
    rfl
  | none =>
    simp only [hs, hexec]
    rfl

theorem addLocked_fail (he : S a e = none) (fd : Nat) (cb : Option φ) (env : Env σ ψ) :
    m.addLocked a fd e cb env false = .ok (m, -1) := by
  have hbit : ¬(m.heap a).events &&& e.bit ≠ 0 := by
    rw [h a, ne_eq, not_not]
    exact ((S a).events_bit e).mpr he
  simp only [addLocked, if_neg hbit, if_true]

theorem addLocked_registered (he : (S a e).isSome) (fd : Nat) (cb : Option φ) (env : Env σ ψ)
    (rt : Bool) : m.addLocked a fd e cb env rt = .error .assertAdd := by
  have hbit : (m.heap a).events &&& e.bit ≠ 0 := by
    rw [h a]
    intro h0
    rw [((S a).events_bit e).mp h0] at he
    cases he
  simp only [addLocked, if_pos hbit]

/-- The event is not registered, or `epoll_ctl` fails. -/
theorem delLocked_same (fd : Nat) {rt : Bool} (he : S a e = none ∨ rt = false) :
    m.delLocked a fd e rt = (m, false) := by
  rcases he with he | rfl
  · have hbit : (m.heap a).events &&& e.bit = 0 := by
      rw [h a]
      exact ((S a).events_bit e).mpr he
    simp only [delLocked, if_pos hbit]
  · simp [delLocked]

theorem delLocked_ok {t : σ × Task φ ψ} (he : S a e = some t) (fd : Nat) :
    m.delLocked a fd e true = (m.store a fd (Function.update (S a) e none) (-1) [], true) := by
  obtain ⟨fd₀, hc⟩ : ∃ fd₀, m.heap a = .ofSlots fd₀ (S a) := ⟨_, h a⟩
  have hbit : ¬(FdContext.ofSlots fd₀ (S a)).events &&& e.bit = 0 := by
    change ¬(S a).events &&& e.bit = 0
    rw [(S a).events_bit, he]
    simp
  have hset := FdContext.setContext_ofSlots fd₀ (S a) e none
  have hev : (FdContext.ofSlots fd₀ (S a)).events &&& ~~~e.bit =
      Slots.events (Function.update (S a) e none) := (S a).events_erase e
  have hint := Slots.interest_eq (Function.update (S a) e none)
  simp only [delLocked, hc, if_neg hbit, hev, epollCtl, hint]
  rw [store, put_eq hc, ← hset, List.append_nil]
  rfl

theorem trigger_ok {t : σ × Task φ ψ} (he : S a e = some t) :
    m.trigger a e = .ok (m.put a (Function.update (S a) e none) (-1) [t]) := by
  obtain ⟨fd₀, hc⟩ : ∃ fd₀, m.heap a = .ofSlots fd₀ (S a) := ⟨_, h a⟩
  rw [put_eq hc]
  simp only [trigger, hc, FdContext.triggerEvent_ofSlots fd₀ he, bind, Except.bind]
  rfl

theorem trigger_none (he : S a e = none) : m.trigger a e = .error .assertTrigger := by
  rw [trigger, h a, FdContext.triggerEvent_none _ he]
  rfl

theorem triggerIf_ok {b : Bool} (hb : b = true → (S a e).isSome) :
    triggerIf b m a e = .ok (m.put a ((S a).without fun e' => b && e' == e)
      (-(if b then (S a e).toList else []).length) (if b then (S a e).toList else [])) := by
  cases b with
  | true =>
    obtain ⟨t, ht⟩ := Option.isSome_iff_exists.mp (hb rfl)
    simp only [triggerIf, if_true, trigger_ok h ht, Bool.true_and, Slots.without_single, ht]
    rfl
  | false =>
    have hsame : ((S a).without fun e' => false && e' == e) = S a := by
      funext e'
      simp [Slots.without]
    rw [hsame]
    exact congrArg Except.ok (h.put_self a).symm

/-- Triggering the events of `p`, READ first: all of them must be registered. -/
theorem triggerBoth_ok {p : Event → Bool} (hp : ∀ e, p e = true → (S a e).isSome) :
    (do let m ← triggerIf (p .READ) m a .READ
        triggerIf (p .WRITE) m a .WRITE) =
      Except.ok (m.put a ((S a).without p) (-((S a).taken p).length) ((S a).taken p)) := by
  have hread := triggerIf_ok h (hp .READ)
  set r := (S a).without fun e' => p .READ && e' == .READ with hr
  have hkeep : r .WRITE = S a .WRITE := by simp [hr, Slots.without]
  have hwrite := triggerIf_ok (h.put a r (-(if p .READ then (S a .READ).toList else []).length)
    (if p .READ then (S a .READ).toList else [])) (a := a) (e := .WRITE) (b := p .WRITE) (by
      rw [Function.update_self, hkeep]
      exact hp .WRITE)
  rw [Function.update_self, put_put, hkeep] at hwrite
  have hboth : (r.without fun e' => p .WRITE && e' == .WRITE) = (S a).without p := by
    funext e'
    cases e' <;> simp [hr, Slots.without]
  simp only [hread, bind, Except.bind, hwrite, hboth, Slots.taken, List.length_append,
    Int.natCast_add, Int.neg_add]

theorem triggerBoth_fault {p : Event → Bool} (hp : ∃ e, p e = true ∧ S a e = none) :
    (do let m ← triggerIf (p .READ) m a .READ
        triggerIf (p .WRITE) m a .WRITE) = Except.error .assertTrigger := by
  by_cases hr : p .READ = true ∧ S a .READ = none
  · simp only [hr.1, triggerIf, if_true, trigger_none h hr.2, bind, Except.bind]
  · have hread := triggerIf_ok h (b := p .READ) (e := .READ) (a := a) fun hp => by
      rw [Option.isSome_iff_ne_none]
      exact fun hn => hr ⟨hp, hn⟩
    obtain ⟨e, hpe, hne⟩ := hp
    cases e with
    | READ => exact absurd ⟨hpe, hne⟩ hr
    | WRITE =>
      have hnone := trigger_none (h.put a ((S a).without fun e' => p .READ && e' == .READ)
        (-(if p .READ then (S a .READ).toList else []).length)
        (if p .READ then (S a .READ).toList else [])) (a := a) (e := .WRITE) (by
          rw [Function.update_self]
          simpa [Slots.without] using hne)
      simp only [hread, bind, Except.bind]
      rw [triggerIf, if_pos hpe, hnone]

/-- The event is not registered, or `epoll_ctl` fails. -/
theorem cancelLocked_same (fd : Nat) {rt : Bool} (he : S a e = none ∨ rt = false) :
    m.cancelLocked a fd e rt = .ok (m, false) := by
  rcases he with he | rfl
  · have hbit : (m.heap a).events &&& e.bit = 0 := by
      rw [h a]
      exact ((S a).events_bit e).mpr he
    simp only [cancelLocked, if_pos hbit]
  · simp [cancelLocked]

theorem cancelLocked_ok {t : σ × Task φ ψ} (he : S a e = some t) (fd : Nat) :
    m.cancelLocked a fd e true =
      .ok (m.store a fd (Function.update (S a) e none) (-1) [t], true) := by
  have hev : (m.heap a).events &&& ~~~e.bit = Slots.events (Function.update (S a) e none) := by
    rw [h a]
    exact (S a).events_erase e
  have hbit : ¬(m.heap a).events &&& e.bit = 0 := by
    rw [h a]
    change ¬(S a).events &&& e.bit = 0
    rw [(S a).events_bit, he]
    simp
  have hint := Slots.interest_eq (Function.update (S a) e none)
  have hok : Ok { m with
    interest :=
      Function.update m.interest fd (Slots.interest (Function.update (S a) e none)) } S := h
  have htrig := trigger_ok hok he
  simp only [cancelLocked, if_neg hbit, hev, epollCtl, hint, htrig, bind, Except.bind]
  rfl

theorem cancelAllLocked_same (fd : Nat) {rt : Bool} (he : (∀ e, S a e = none) ∨ rt = false) :
    m.cancelAllLocked a fd rt = .ok (m, false) := by
  rcases he with he | rfl
  · have hev : (m.heap a).events = 0 := by
      rw [h a]
      exact (S a).events_eq_zero.mpr he
    simp only [cancelAllLocked, if_pos hev]
  · simp [cancelAllLocked]

theorem events_test : ((m.heap a).events &&& e.bit != 0) = (S a e).isSome := by
  have hbit : (m.heap a).events &&& e.bit = 0 ↔ S a e = none := by
    rw [h a]
    exact (S a).events_bit e
  rw [Bool.eq_iff_iff, bne_iff_ne, Ne, hbit, Option.isSome_iff_ne_none]

theorem cancelAllLocked_ok (he : ∃ e, S a e ≠ none) (fd : Nat) :
    m.cancelAllLocked a fd true = .ok (m.store a fd (fun _ => none)
      (-((S a).taken fun e => (S a e).isSome).length) ((S a).taken fun e => (S a e).isSome),
      true) := by
  have hev : ¬(m.heap a).events = 0 := by
    rw [h a]
    obtain ⟨e, he⟩ := he
    exact fun h0 => he ((S a).events_eq_zero.mp h0 e)
  have hok : Ok (m.epollCtl .DEL fd 0) S := h
  have hread := triggerIf_ok hok (a := a) (e := .READ) (b := (S a .READ).isSome) fun hs => hs
  set r := (S a).without fun e' => (S a .READ).isSome && e' == .READ with hr
  have hok₁ := hok.put a r (-(if (S a .READ).isSome then (S a .READ).toList else []).length)
    (if (S a .READ).isSome then (S a .READ).toList else [])
  have hkeep : r .WRITE = S a .WRITE := by simp [hr, Slots.without]
  have hwrite := triggerIf_ok hok₁ (a := a) (e := .WRITE) (b := (S a .WRITE).isSome) fun hs => by
    rwa [Function.update_self, hkeep]
  rw [Function.update_self, put_put, hkeep] at hwrite
  have hboth : (r.without fun e' => (S a .WRITE).isSome && e' == .WRITE) = fun _ => none := by
    funext e'
    cases e' with
    | READ => cases hs : S a .READ <;> simp [hr, Slots.without, hs]
    | WRITE => cases hs : S a .WRITE <;> simp [hr, Slots.without, hs]
  rw [hboth] at hwrite
  have htest := events_test hok₁ (a := a) (e := .WRITE)
  rw [Function.update_self, hkeep] at htest
  have hnone : ∀ (k : Int) out,
      (((m.epollCtl .DEL fd 0).put a (fun _ => none) k out).heap a).events = 0 := by
    intro k out
    simp only [put, Function.update_self]
    exact (Slots.events_eq_zero _).mpr fun _ => rfl
  simp only [cancelAllLocked, if_neg hev, events_test hok, hread, bind, Except.bind, htest, hwrite,
    hnone]
  have hint : Slots.interest (fun _ => none : Slots σ φ ψ) = none :=
    if_pos ((Slots.events_eq_zero _).mpr fun _ => rfl)
  simp only [store, hint, Slots.taken, List.length_append, Int.natCast_add, Int.neg_add]
  rfl

/-- The events of a report are none of those registered, or `epoll_ctl` fails. -/
theorem dispatch_same {events : UInt32} {p : Event → Bool} (hreal : realEvents events = eventSet p)
    {rt : Bool} (he : (∀ e, p e = true → S a e = none) ∨ rt = false) :
    m.dispatch a events rt = .ok m := by
  rcases he with he | rfl
  · have hnone : (m.heap a).events &&& realEvents events = 0 := by
      rw [h a, hreal]
      change (S a).events &&& eventSet p = 0
      rw [Slots.events, eventSet_and, eventSet_eq_zero]
      intro e
      cases hp : p e with
      | false => simp
      | true => simp [he e hp]
    simp only [dispatch, if_pos hnone]
  · simp [dispatch]

theorem dispatch_eq {events : UInt32} {p : Event → Bool} (hreal : realEvents events = eventSet p)
    (he : ∃ e, p e = true ∧ S a e ≠ none) :
    m.dispatch a events true = (do
      let m := { m with
        interest := Function.update m.interest (m.heap a).fd ((S a).without p).interest }
      let m ← triggerIf (p .READ) m a .READ
      triggerIf (p .WRITE) m a .WRITE) := by
  have hev : (m.heap a).events = eventSet fun e => (S a e).isSome := by
    rw [h a]
    rfl
  have hsome : ¬(m.heap a).events &&& eventSet p = 0 := by
    rw [hev, eventSet_and, eventSet_eq_zero]
    obtain ⟨e, hpe, hne⟩ := he
    intro hall
    have := hall e
    rw [hpe, Bool.and_true, Option.isSome_eq_false_iff, Option.isNone_iff_eq_none] at this
    exact hne this
  have hleft : (m.heap a).events &&& ~~~eventSet p = ((S a).without p).events := by
    rw [h a]
    exact (S a).events_without p
  have hbit : ∀ e : Event, (eventSet p &&& e.bit != 0) = p e := by
    intro e
    rw [Bool.eq_iff_iff, bne_iff_ne, Ne, eventSet_and_bit, Bool.not_eq_false]
  have hint := Slots.interest_eq ((S a).without p)
  simp only [dispatch, hreal, if_neg hsome, hleft, epollCtl, hint, hbit]
  rfl

/-- All events of the report are registered. -/
theorem dispatch_ok {events : UInt32} {p : Event → Bool} (hreal : realEvents events = eventSet p)
    (he : ∃ e, p e = true ∧ S a e ≠ none) (hp : ∀ e, p e = true → (S a e).isSome) :
    m.dispatch a events true = .ok (m.store a (m.heap a).fd ((S a).without p)
      (-((S a).taken p).length) ((S a).taken p)) := by
  have hok : Ok { m with
    interest := Function.update m.interest (m.heap a).fd ((S a).without p).interest } S := h
  rw [dispatch_eq h hreal he]
  exact triggerBoth_ok hok hp

/-- Some event of the report is registered, and some is not. -/
theorem dispatch_fault {events : UInt32} {p : Event → Bool}
    (hreal : realEvents events = eventSet p) (he : ∃ e, p e = true ∧ S a e ≠ none)
    (hp : ∃ e, p e = true ∧ S a e = none) :
    m.dispatch a events true = .error .assertTrigger := by
  have hok : Ok { m with
    interest := Function.update m.interest (m.heap a).fd ((S a).without p).interest } S := h
  rw [dispatch_eq h hreal he]
  exact triggerBoth_fault hok hp

end

end IOManager

end Captain
