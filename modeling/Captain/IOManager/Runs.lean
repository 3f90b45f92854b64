import Captain.IOManager.Registry
import Captain.Transition
import Mathlib.Tactic.Abel

/-!
# The descriptor events over whole runs

A run is a sequence of calls made one after the other: `addEvent` of an event that is not
registered on the descriptor, from a worker thread, and `delEvent`, `cancelEvent`, `cancelAll` and
dispatches of registered events, each with any outcome of `epoll_ctl`. Beside the manager the
state records all registrations ever made, and those that `delEvent` took out.

* `events_invariant`: after every run the counter, the event bits, the event contexts and what
  `epoll` was told agree, no assertion can fail, a failed `epoll_ctl` changes none of this, every
  registration is pending, was handed to its scheduler, or was deleted, exactly once, and a call
  takes out just what it is about, handing it over unless it is `delEvent`.
-/

namespace Captain

open Transition

variable {σ φ ψ : Type}

namespace FdContext

/-- A bit is set exactly when its event context holds a scheduler and one task; the event context
of a clear bit is empty. -/
structure WellFormed (c : FdContext σ φ ψ) : Prop where
  mask : c.events &&& ~~~(Event.READ.bit ||| Event.WRITE.bit) = 0
  set : ∀ e, c.events &&& e.bit ≠ 0 → (c.getContext e).scheduler.isSome ∧
    ((c.getContext e).cb.isSome ↔ (c.getContext e).fiber = none)
  clear : ∀ e, c.events &&& e.bit = 0 → c.getContext e = {}

theorem wellFormed_ofSlots (fd : Nat) (r : Slots σ φ ψ) : WellFormed (ofSlots fd r) where
  mask := by
    change r.events &&& ~~~eventBits true true = 0
    rw [Slots.events, eventSet, eventBits_and_not, eventBits_eq_zero]
    simp
  set e he := by
    have hne : r e ≠ none := fun hn => he ((r.events_bit e).mpr hn)
    have hctx : (ofSlots fd r).getContext e = .ofSlot (r e) := getContext_ofSlots fd r r.events e
    rw [hctx]
    obtain ⟨⟨s, cb | fiber⟩, ht⟩ := Option.ne_none_iff_exists'.mp hne <;>
      simp [ht, EventContext.ofSlot]
  clear e he := by
    have hn : r e = none := (r.events_bit e).mp he
    have hctx : (ofSlots fd r).getContext e = .ofSlot (r e) := getContext_ofSlots fd r r.events e
    rw [hctx, hn]
    rfl

end FdContext

namespace IOManager

inductive Call (σ φ ψ : Type)
  | addEvent (fd : Nat) (event : Event) (cb : Option φ) (env : Env σ ψ) (rt : Bool)
  | delEvent (fd : Nat) (event : Event) (rt : Bool)
  | cancelEvent (fd : Nat) (event : Event) (rt : Bool)
  | cancelAll (fd : Nat) (rt : Bool)
  | dispatch (a : Nat) (events : UInt32) (rt : Bool)

/-- The outcome of `epoll_ctl`, should the call get to it. -/
def Call.rt : Call σ φ ψ → Bool
  | .addEvent _ _ _ _ rt => rt
  | .delEvent _ _ rt => rt
  | .cancelEvent _ _ rt => rt
  | .cancelAll _ rt => rt
  | .dispatch _ _ rt => rt

inductive Ret
  | code (n : Int)
  | result (b : Bool)
  | done
  deriving DecidableEq

def call (m : IOManager σ φ ψ) : Call σ φ ψ → Except IOFault (IOManager σ φ ψ × Ret)
  | .addEvent fd event cb env rt => (m.addEvent fd event cb env rt).map fun r => (r.1, .code r.2)
  | .delEvent fd event rt => .ok ((m.delEvent fd event rt).1, .result (m.delEvent fd event rt).2)
  | .cancelEvent fd event rt => (m.cancelEvent fd event rt).map fun r => (r.1, .result r.2)
  | .cancelAll fd rt => (m.cancelAll fd rt).map fun r => (r.1, .result r.2)
  | .dispatch a events rt => (m.dispatch a events rt).map fun m => (m, .done)

/-- `addEvent` is called on a worker thread for an event that is not registered, and only registered
events are dispatched. -/
def Legal (m : IOManager σ φ ψ) : Call σ φ ψ → Prop
  | .addEvent fd event _ env _ => env.scheduler.isSome ∧ env.exec = true ∧
    ∀ a, m.lookup fd = some a → (m.heap a).events &&& event.bit = 0
  | .dispatch a events _ =>
    a ∈ m.m_fdContexts ∧ realEvents events &&& ~~~(m.heap a).events = 0
  | _ => True

/-- The registration that a call made. -/
def registers : Call σ φ ψ → Ret → Multiset (σ × Task φ ψ)
  | .addEvent _ _ cb env _, .code 0 =>
    ((env.scheduler.map fun s => (s, newTask cb env.fiber)).toList : List (σ × Task φ ψ))
  | _, _ => 0

/-- The registration that a `delEvent` took out. -/
def deletes (m : IOManager σ φ ψ) : Call σ φ ψ → Ret → Multiset (σ × Task φ ψ)
  | .delEvent fd event _, .result true =>
    ((m.lookup fd).toList.flatMap fun a =>
      ((m.heap a).getContext event).registration.toList : List (σ × Task φ ψ))
  | _, _ => 0

structure Traced (σ φ ψ : Type) where
  mgr : IOManager σ φ ψ
  registered : Multiset (σ × Task φ ψ)
  deleted : Multiset (σ × Task φ ψ)

def start : Traced σ φ ψ := ⟨new, 0, 0⟩

/-- A legal call and what it returns. -/
def Step (s : Traced σ φ ψ) (l : Call σ φ ψ × Ret) (s' : Traced σ φ ψ) : Prop :=
  Legal s.mgr l.1 ∧ s.mgr.call l.1 = .ok (s'.mgr, l.2) ∧
    s'.registered = s.registered + registers l.1 l.2 ∧
    s'.deleted = s.deleted + deletes s.mgr l.1 l.2

/-- Nothing is changed but for new empty contexts. -/
structure Same (m m' : IOManager σ φ ψ) : Prop where
  count : m'.m_pendingEventCount = m.m_pendingEventCount
  interest : m'.interest = m.interest
  scheduled : m'.scheduled = m.scheduled
  table : m.m_fdContexts <+: m'.m_fdContexts
  kept : ∀ a ∈ m.m_fdContexts, m'.heap a = m.heap a
  fresh : ∀ a ∈ m'.m_fdContexts, a ∉ m.m_fdContexts → ∃ fd, m'.heap a = { fd := fd }

theorem Same.refl (m : IOManager σ φ ψ) : Same m m :=
  ⟨rfl, rfl, rfl, List.prefix_rfl, fun _ _ => rfl, fun _ h hn => absurd h hn⟩

/-- What is registered on a descriptor for an event. -/
def held (m : IOManager σ φ ψ) (fd : Nat) (e : Event) : Option (σ × Task φ ψ) :=
  (m.lookup fd).bind fun a => ((m.heap a).getContext e).registration

/-- The registration that a call makes. -/
def adds : Call σ φ ψ → Nat → Event → Option (σ × Task φ ψ)
  | .addEvent fd event cb env rt, fd', e =>
    if rt ∧ fd' = fd ∧ e = event then env.scheduler.map fun s => (s, newTask cb env.fiber) else none
  | _, _, _ => none

/-- The events that a call clears. -/
def clears (m : IOManager σ φ ψ) : Call σ φ ψ → Nat → Event → Bool
  | .addEvent .., _, _ => false
  | .delEvent fd event rt, fd', e => rt ∧ fd' = fd ∧ e = event
  | .cancelEvent fd event rt, fd', e => rt ∧ fd' = fd ∧ e = event
  | .cancelAll fd rt, fd', _ => rt ∧ fd' = fd
  | .dispatch a events rt, fd', e => rt ∧ m.lookup fd' = some a ∧ realEvents events &&& e.bit ≠ 0

/-- What a call hands over to the schedulers, in order. -/
def handsOver (m : IOManager σ φ ψ) : Call σ φ ψ → List (σ × Task φ ψ)
  | .cancelEvent fd event rt => if rt then (m.held fd event).toList else []
  | .cancelAll fd rt => if rt then (m.held fd .READ).toList ++ (m.held fd .WRITE).toList else []
  | .dispatch a events rt => if rt then triggered (m.heap a) (realEvents events) else []
  | _ => []

/-- A call hands over what it triggers or cancels, and nothing is left of it; what it is not about
stays registered. -/
structure Effect (m : IOManager σ φ ψ) (c : Call σ φ ψ) (m' : IOManager σ φ ψ) : Prop where
  scheduled : m'.scheduled = m.scheduled ++ handsOver m c
  held : ∀ fd e, m'.held fd e =
    if clears m c fd e then none else (adds c fd e).or (m.held fd e)

/-! ## The invariant -/

structure Inv (s : Traced σ φ ψ) (S : Nat → Slots σ φ ψ) : Prop where
  registry : Registry s.mgr S
  table : s.mgr.m_fdContexts = List.range s.mgr.next
  size : 32 ≤ s.mgr.next
  fd : ∀ a < s.mgr.next, (s.mgr.heap a).fd = a
  interest : ∀ fd, s.mgr.interest fd = (S fd).interest
  law : s.registered = (s.mgr.scheduled : Multiset (σ × Task φ ψ)) + s.deleted +
    pending s.mgr.next S

theorem contextResize_grow {m : IOManager σ φ ψ} (htable : m.m_fdContexts = List.range m.next)
    (hfd : ∀ a < m.next, (m.heap a).fd = a) (size : Nat) (hsize : m.next ≤ size) :
    (m.contextResize size).m_fdContexts = List.range size ∧ (m.contextResize size).next = size ∧
      (∀ a < size, ((m.contextResize size).heap a).fd = a) ∧ Same m (m.contextResize size) ∧
      (m.contextResize size).interest = m.interest ∧
      (m.contextResize size).scheduled = m.scheduled := by
  have hlen : m.m_fdContexts.length = m.next := by rw [htable, List.length_range]
  have hsum : m.next + (size - m.next) = size := by omega
  have hrange : List.range m.next ++ (List.range (size - m.next)).map (fun i => m.next + i) =
      List.range size := by
    rw [← List.range_add, hsum]
  simp only [contextResize, hlen]
  split
  · rename_i hle
    have heq : m.next = size := by omega
    refine ⟨?_, heq, fun a ha => hfd a (by omega), ?_, rfl, rfl⟩
    · rw [htable, ← heq, List.take_of_length_le (by simp)]
    · refine ⟨rfl, rfl, rfl, ?_, fun _ _ => rfl, ?_⟩
      · dsimp only
        rw [List.take_of_length_le (by omega)]
      · intro a ha hn
        exact absurd (List.mem_of_mem_take ha) hn
  · dsimp only
    refine ⟨by rw [htable, hrange], hsum, fun a ha => ?_, ⟨rfl, rfl, rfl, ?_, ?_, ?_⟩, rfl, rfl⟩
    · split
      · dsimp only
        omega
      · exact hfd a (by omega)
    · exact List.prefix_append _ _
    · intro a ha
      rw [htable, List.mem_range] at ha
      exact if_neg (by omega)
    · intro a ha hn
      rw [htable, hrange, List.mem_range] at ha
      rw [htable, List.mem_range] at hn
      exact ⟨_, if_pos (by omega)⟩

theorem inv_start : Inv (start : Traced σ φ ψ) (fun _ _ => none) := by
  obtain ⟨htable, hnext, hfd, -, hint, -⟩ := contextResize_grow
    (m := (⟨fun _ => {}, 0, [], 0, fun _ => none, []⟩ : IOManager σ φ ψ)) rfl (by simp)
    32 (Nat.zero_le 32)
  refine ⟨registry_new, ?_, ?_, ?_, ?_, ?_⟩
  · exact htable.trans (congrArg List.range hnext.symm)
  · exact Nat.le_of_eq hnext.symm
  · intro a ha
    exact hfd a (lt_of_lt_of_eq ha hnext)
  · intro fd
    have hnone : Slots.interest (fun _ => none : Slots σ φ ψ) = none :=
      if_pos ((Slots.events_eq_zero _).mpr fun _ => rfl)
    rw [hnone]
    exact congrFun hint fd
  · rw [pending, Finset.sum_eq_zero fun _ _ => Slots.tasks_none]
    rfl

theorem Inv.lookup_eq {s : Traced σ φ ψ} {S : Nat → Slots σ φ ψ} (h : Inv s S) (fd : Nat) :
    s.mgr.lookup fd = if fd < s.mgr.next then some fd else none := by
  rw [lookup, h.table, List.length_range]
  split
  · rename_i hlt
    rw [List.getElem?_range hlt]
  · rfl

/-- A table that is too short is made long enough, and nothing else changes. -/
theorem Inv.growAndGet {s : Traced σ φ ψ} {S : Nat → Slots σ φ ψ} (h : Inv s S) {fd : Nat}
    (hfd : s.mgr.next ≤ fd) : ∃ m', s.mgr.growAndGet fd = .ok (m', fd) ∧
      Inv { s with mgr := m' } S ∧ Same s.mgr m' ∧ fd < m'.next := by
  have hsize := h.size
  obtain ⟨htable, hnext, hfds, hsame, hint, hsch⟩ := contextResize_grow h.table h.fd (fd * 3 / 2)
    (by omega)
  refine ⟨s.mgr.contextResize (fd * 3 / 2), ?_, ⟨h.registry.contextResize _, ?_, ?_, ?_, ?_, ?_⟩,
    hsame, ?_⟩
  · simp only [IOManager.growAndGet, htable, List.getElem?_range (show fd < fd * 3 / 2 by omega)]
  · rw [htable, hnext]
  · dsimp only
    omega
  · intro a ha
    exact hfds a (lt_of_lt_of_eq ha hnext)
  · intro fd'
    dsimp only
    rw [hint]
    exact h.interest fd'
  · dsimp only
    rw [hsch, hnext, pending_le (by omega) h.registry.fresh]
    exact h.law
  · omega

/-- New registrations on one descriptor: those in `more` are made, those in `out` go to their
schedulers, those in `del` are deleted. -/
theorem Inv.store {s : Traced σ φ ψ} {S : Nat → Slots σ φ ψ} (h : Inv s S) {a : Nat}
    (ha : a < s.mgr.next) {r : Slots σ φ ψ} (out : List (σ × Task φ ψ))
    (more del : Multiset (σ × Task φ ψ)) (hr : r.tasks + (out + del) = (S a).tasks + more)
    {count : Int} (hcount : count = (more.card : Int) - (out.length + del.card : Nat)) :
    Inv ⟨s.mgr.store a a r count out, s.registered + more, s.deleted + del⟩
      (Function.update S a r) := by
  refine ⟨h.registry.store ha a hr ?_ out, h.table, h.size, fun b hb => ?_, fun fd => ?_, ?_⟩
  · rw [hcount, Multiset.card_add, Multiset.coe_card]
  · have hfd := h.fd b hb
    simp only [IOManager.store, put]
    by_cases hba : b = a
    · subst hba
      rw [Function.update_self]
      exact hfd
    · rw [Function.update_of_ne hba]
      exact hfd
  · simp only [IOManager.store]
    by_cases hfa : fd = a
    · subst hfa
      rw [Function.update_self, Function.update_self]
    · rw [Function.update_of_ne hfa, Function.update_of_ne hfa]
      exact h.interest fd
  · have hpend := pending_update ha hr
    change s.registered + more = ((s.mgr.scheduled ++ out : List (σ × Task φ ψ)) :
      Multiset (σ × Task φ ψ)) + (s.deleted + del) +
      pending s.mgr.next (Function.update S a r)
    rw [h.law, ← Multiset.coe_add]
    calc _ = (s.mgr.scheduled : Multiset (σ × Task φ ψ)) + s.deleted +
          (pending s.mgr.next S + more) := by abel
      _ = _ := by
          rw [← hpend]
          abel

/-! ## One call -/

/-- What is registered for an event, as `delEvent` finds it. -/
theorem Inv.registration {s : Traced σ φ ψ} {S : Nat → Slots σ φ ψ} (h : Inv s S) (a : Nat)
    (e : Event) : ((s.mgr.heap a).getContext e).registration = S a e := by
  rw [h.registry.ok a]
  exact (congrArg _ (FdContext.getContext_ofSlots _ _ _ e)).trans
    (FdContext.registration_ofSlot _)

theorem Inv.held_eq {s : Traced σ φ ψ} {S : Nat → Slots σ φ ψ} (h : Inv s S) (fd : Nat)
    (e : Event) : s.mgr.held fd e = S fd e := by
  rw [held, h.lookup_eq]
  split
  · exact h.registration fd e
  · rename_i hlt
    rw [h.registry.fresh fd (Nat.le_of_not_lt hlt)]
    rfl

/-- What one legal call does. -/
structure CallSpec (s : Traced σ φ ψ) (S : Nat → Slots σ φ ψ) (c : Call σ φ ψ)
    (m' : IOManager σ φ ψ) (r : Ret) (S' : Nat → Slots σ φ ψ) : Prop where
  run : s.mgr.call c = .ok (m', r)
  inv : Inv ⟨m', s.registered + registers c r, s.deleted + deletes s.mgr c r⟩ S'
  scheduled : m'.scheduled = s.mgr.scheduled ++ handsOver s.mgr c
  slots : ∀ fd e, S' fd e = if clears s.mgr c fd e then none else (adds c fd e).or (S fd e)
  fail : c.rt = false → Same s.mgr m'

theorem CallSpec.effect {s : Traced σ φ ψ} {S S' : Nat → Slots σ φ ψ} {c : Call σ φ ψ}
    {m' : IOManager σ φ ψ} {r : Ret} (h : Inv s S) (hspec : CallSpec s S c m' r S') :
    Effect s.mgr c m' where
  scheduled := hspec.scheduled
  held fd e := by
    rw [h.held_eq, ← hspec.slots]
    exact hspec.inv.held_eq fd e

/-- A call that changes nothing. -/
theorem CallSpec.of_same {s : Traced σ φ ψ} {S : Nat → Slots σ φ ψ} (h : Inv s S)
    {c : Call σ φ ψ} {r : Ret} (hrun : s.mgr.call c = .ok (s.mgr, r)) (hreg : registers c r = 0)
    (hdel : deletes s.mgr c r = 0) (hhands : handsOver s.mgr c = [])
    (hadds : ∀ fd e, adds c fd e = none)
    (hclears : ∀ fd e, clears s.mgr c fd e = true → S fd e = none) :
    CallSpec s S c s.mgr r S where
  run := hrun
  inv := by
    rw [hreg, hdel, add_zero, add_zero]
    exact h
  scheduled := by rw [hhands, List.append_nil]
  slots fd e := by
    split
    · exact hclears fd e ‹_›
    · rw [hadds, Option.none_or]
  fail _ := Same.refl _

/-- A call that stores new registrations on one descriptor. -/
theorem CallSpec.of_store {s : Traced σ φ ψ} {S : Nat → Slots σ φ ψ} (h : Inv s S) {a : Nat}
    (ha : a < s.mgr.next) {c : Call σ φ ψ} {r : Ret} (slots : Slots σ φ ψ) (count : Int)
    (out : List (σ × Task φ ψ)) (hrun : s.mgr.call c = .ok (s.mgr.store a a slots count out, r))
    (hslots : slots.tasks + (out + deletes s.mgr c r) = (S a).tasks + registers c r)
    (hcount : count =
      ((registers c r).card : Int) - (out.length + (deletes s.mgr c r).card : Nat))
    (hrt : c.rt = true) (hhands : handsOver s.mgr c = out) (hadds : ∀ fd e, adds c fd e = none)
    (hclears : ∀ fd e, clears s.mgr c fd e = true → fd = a)
    (hleft : ∀ e, slots e = if clears s.mgr c a e then none else S a e) :
    CallSpec s S c (s.mgr.store a a slots count out) r (Function.update S a slots) where
  run := hrun
  inv := h.store ha out _ _ hslots hcount
  scheduled := by
    rw [hhands]
    rfl
  slots fd e := by
    rw [hadds, Option.none_or]
    by_cases hfd : fd = a
    · rw [hfd, Function.update_self]
      exact hleft e
    · rw [Function.update_of_ne hfd, if_neg fun hc => hfd (hclears fd e hc)]
  fail hf := by
    rw [hrt] at hf
    cases hf

theorem add_spec {s : Traced σ φ ψ} {S : Nat → Slots σ φ ψ} (h : Inv s S) {fd : Nat}
    (hfd : fd < s.mgr.next) {e : Event} (he : S fd e = none) (cb : Option φ) {env : Env σ ψ}
    (hs : env.scheduler.isSome) (hexec : env.exec = true) (rt : Bool) :
    ∃ m' n S', s.mgr.addLocked fd fd e cb env rt = .ok (m', n) ∧
      Inv ⟨m', s.registered + registers (.addEvent fd e cb env rt) (.code n), s.deleted⟩ S' ∧
      m'.scheduled = s.mgr.scheduled ∧
      (∀ fd' e', S' fd' e' = (adds (.addEvent fd e cb env rt) fd' e').or (S fd' e')) ∧
      (rt = false → m' = s.mgr) := by
  cases rt with
  | false =>
    refine ⟨s.mgr, -1, S, addLocked_fail h.registry.ok he fd cb env, ?_, rfl,
      fun _ _ => Option.none_or.symm, fun _ => rfl⟩
    rw [show registers (.addEvent fd e cb env false) (.code (-1)) = 0 from rfl, add_zero]
    exact h
  | true =>
    obtain ⟨sch, hsch⟩ := Option.isSome_iff_exists.mp hs
    refine ⟨_, 0,
      Function.update S fd (Function.update (S fd) e (some (sch, newTask cb env.fiber))),
      addLocked_ok h.registry.ok he fd cb hsch hexec, ?_, List.append_nil _, fun fd' e' => ?_,
      fun hf => by cases hf⟩
    rotate_left 1
    · rw [adds, hsch, Option.map_some]
      by_cases hfd' : fd' = fd
      · subst hfd'
        rw [Function.update_self]
        by_cases he' : e' = e
        · subst he'
          rw [Function.update_self, if_pos ⟨rfl, rfl, rfl⟩]
          rfl
        · rw [Function.update_of_ne he', if_neg fun hand => he' hand.2.2, Option.none_or]
      · rw [Function.update_of_ne hfd', if_neg fun hand => hfd' hand.2.1, Option.none_or]
    have hreg : registers (.addEvent fd e cb env true) (.code 0) =
        {(sch, newTask cb env.fiber)} := by
      simp [registers, hsch]
    have hinv := h.store hfd [] {(sch, newTask cb env.fiber)} 0
      (show Slots.tasks (Function.update (S fd) e (some (sch, newTask cb env.fiber))) + _ = _ by
        rw [Slots.tasks_insert he, Multiset.coe_nil, add_zero, add_zero])
      (show (1 : Int) = _ by simp)
    rw [add_zero] at hinv
    rw [hreg]
    exact hinv

theorem addEvent_callSpec {s : Traced σ φ ψ} {S : Nat → Slots σ φ ψ} (h : Inv s S) {fd : Nat}
    {e : Event} {cb : Option φ} {env : Env σ ψ} {rt : Bool}
    (hlegal : Legal s.mgr (.addEvent fd e cb env rt)) :
    ∃ m' r S', CallSpec s S (.addEvent fd e cb env rt) m' r S' := by
  obtain ⟨hs, hexec, hclear⟩ := hlegal
  have hlookup := h.lookup_eq fd
  by_cases hfd : fd < s.mgr.next
  · rw [if_pos hfd] at hlookup
    have he : S fd e = none := by
      have := hclear fd hlookup
      rw [h.registry.ok fd] at this
      exact ((S fd).events_bit e).mp this
    obtain ⟨m', n, S', hrun, hinv, hsch, hslots, hfail⟩ := add_spec h hfd he cb hs hexec rt
    refine ⟨m', .code n, S', ?_, ?_, hsch.trans (List.append_nil _).symm, hslots, fun hrt => ?_⟩
    · simp only [call, addEvent, hlookup, hrun]
      rfl
    · rw [show deletes s.mgr (.addEvent fd e cb env rt) (.code n) = 0 from rfl, add_zero]
      exact hinv
    · rw [hfail hrt]
      exact Same.refl _
  · rw [if_neg hfd] at hlookup
    obtain ⟨m₁, hgrow, hinv₁, hsame, hlt⟩ := h.growAndGet (Nat.le_of_not_lt hfd)
    have he : S fd e = none := by rw [h.registry.fresh fd (Nat.le_of_not_lt hfd)]
    obtain ⟨m', n, S', hrun, hinv, hsch, hslots, hfail⟩ := add_spec hinv₁ hlt he cb hs hexec rt
    refine ⟨m', .code n, S', ?_, ?_, (hsch.trans hsame.scheduled).trans (List.append_nil _).symm,
      hslots, fun hrt => ?_⟩
    · simp only [call, addEvent, hlookup, hgrow, bind, Except.bind]
      dsimp only at hrun
      rw [hrun]
      rfl
    · rw [show deletes s.mgr (.addEvent fd e cb env rt) (.code n) = 0 from rfl, add_zero]
      exact hinv
    · rw [hfail hrt]
      exact hsame

theorem delEvent_callSpec {s : Traced σ φ ψ} {S : Nat → Slots σ φ ψ} (h : Inv s S) (fd : Nat)
    (e : Event) (rt : Bool) : ∃ m' r S', CallSpec s S (.delEvent fd e rt) m' r S' := by
  have hlookup := h.lookup_eq fd
  have hkeep : S fd e = none ∨ rt = false → ∀ fd' e',
      clears s.mgr (.delEvent fd e rt) fd' e' = true → S fd' e' = none := by
    intro hdo fd' e' hc
    obtain ⟨hrt, rfl, rfl⟩ := of_decide_eq_true hc
    exact hdo.resolve_right (by simp [hrt])
  by_cases hfd : fd < s.mgr.next
  · rw [if_pos hfd] at hlookup
    rcases found_or (S fd e) rt with hdo | ⟨t, ht, rfl⟩
    · refine ⟨_, .result false, S, .of_same h ?_ rfl rfl rfl (fun _ _ => rfl) (hkeep hdo)⟩
      simp only [call, delEvent, hlookup, delLocked_same h.registry.ok fd hdo]
    · have hdel : deletes s.mgr (.delEvent fd e true) (.result true) = {t} := by
        simp [deletes, hlookup, h.registration, ht]
      refine ⟨_, .result true, _, .of_store h hfd (Function.update (S fd) e none) (-1) [] ?_ ?_ ?_
        rfl rfl (fun _ _ => rfl) (fun _ _ hc => (of_decide_eq_true hc).2.1) fun e' => ?_⟩
      · simp only [call, delEvent, hlookup, delLocked_ok h.registry.ok ht]
      · rw [hdel, Multiset.coe_nil, zero_add, Slots.tasks_erase ht]
        exact (add_zero _).symm
      · rw [hdel]
        simp [registers]
      · simp [clears, Function.update_apply]
  · rw [if_neg hfd] at hlookup
    have hnone : S fd e = none := by rw [h.registry.fresh fd (Nat.le_of_not_lt hfd)]
    refine ⟨_, .result false, S, .of_same h ?_ rfl rfl rfl (fun _ _ => rfl) (hkeep (.inl hnone))⟩
    simp only [call, delEvent, hlookup]

theorem cancelEvent_callSpec {s : Traced σ φ ψ} {S : Nat → Slots σ φ ψ} (h : Inv s S) (fd : Nat)
    (e : Event) (rt : Bool) : ∃ m' r S', CallSpec s S (.cancelEvent fd e rt) m' r S' := by
  have hlookup := h.lookup_eq fd
  have hkeep : S fd e = none ∨ rt = false → handsOver s.mgr (.cancelEvent fd e rt) = [] ∧
      ∀ fd' e', clears s.mgr (.cancelEvent fd e rt) fd' e' = true → S fd' e' = none := by
    intro hdo
    refine ⟨?_, fun fd' e' hc => ?_⟩
    · rw [handsOver, h.held_eq]
      rcases hdo with hnone | rfl
      · rw [hnone]
        exact ite_self _
      · rfl
    · obtain ⟨hrt, rfl, rfl⟩ := of_decide_eq_true hc
      exact hdo.resolve_right (by simp [hrt])
  by_cases hfd : fd < s.mgr.next
  · rw [if_pos hfd] at hlookup
    rcases found_or (S fd e) rt with hdo | ⟨t, ht, rfl⟩
    · refine ⟨_, .result false, S,
        .of_same h ?_ rfl rfl (hkeep hdo).1 (fun _ _ => rfl) (hkeep hdo).2⟩
      simp only [call, cancelEvent, hlookup, cancelLocked_same h.registry.ok fd hdo]
      rfl
    · refine ⟨_, .result true, _, .of_store h hfd (Function.update (S fd) e none) (-1) [t] ?_ ?_ rfl
        rfl ?_ (fun _ _ => rfl) (fun _ _ hc => (of_decide_eq_true hc).2.1) fun e' => ?_⟩
      · simp only [call, cancelEvent, hlookup, cancelLocked_ok h.registry.ok ht]
        rfl
      · exact (Slots.tasks_erase ht).trans (add_zero _).symm
      · rw [handsOver, h.held_eq, ht]
        rfl
      · simp [clears, Function.update_apply]
  · rw [if_neg hfd] at hlookup
    have hnone : S fd e = none := by rw [h.registry.fresh fd (Nat.le_of_not_lt hfd)]
    refine ⟨_, .result false, S, .of_same h ?_ rfl rfl (hkeep (.inl hnone)).1 (fun _ _ => rfl)
      (hkeep (.inl hnone)).2⟩
    simp only [call, cancelEvent, hlookup]
    rfl

theorem cancelAll_callSpec {s : Traced σ φ ψ} {S : Nat → Slots σ φ ψ} (h : Inv s S) (fd : Nat)
    (rt : Bool) : ∃ m' r S', CallSpec s S (.cancelAll fd rt) m' r S' := by
  have hlookup := h.lookup_eq fd
  have hkeep : (∀ e, S fd e = none) ∨ rt = false → handsOver s.mgr (.cancelAll fd rt) = [] ∧
      ∀ fd' e', clears s.mgr (.cancelAll fd rt) fd' e' = true → S fd' e' = none := by
    intro hdo
    refine ⟨?_, fun fd' e' hc => ?_⟩
    · rw [handsOver, h.held_eq, h.held_eq]
      rcases hdo with hnone | rfl
      · rw [hnone, hnone]
        exact ite_self _
      · rfl
    · obtain ⟨hrt, rfl⟩ := of_decide_eq_true hc
      exact hdo.resolve_right (by simp [hrt]) e'
  by_cases hfd : fd < s.mgr.next
  · rw [if_pos hfd] at hlookup
    rcases (S fd).found_any_or (fun _ => true) rt with hdo | ⟨⟨e, -, he⟩, rfl⟩
    · have hdo := hdo.imp_left fun hall e => hall e rfl
      refine ⟨_, .result false, S,
        .of_same h ?_ rfl rfl (hkeep hdo).1 (fun _ _ => rfl) (hkeep hdo).2⟩
      simp only [call, cancelAll, hlookup, cancelAllLocked_same h.registry.ok fd hdo]
      rfl
    · refine ⟨_, .result true, _, .of_store h hfd (fun _ => none)
        (-((S fd).taken fun e => (S fd e).isSome).length)
        ((S fd).taken fun e => (S fd e).isSome) ?_ ?_ ?_ rfl ?_ (fun _ _ => rfl)
        (fun _ _ hc => (of_decide_eq_true hc).2) fun e' => ?_⟩
      · simp only [call, cancelAll, hlookup, cancelAllLocked_ok h.registry.ok ⟨e, he⟩]
        rfl
      · show 0 + (_ + 0) = _ + 0
        rw [add_zero, add_zero, zero_add, Slots.tasks_taken_all]
      · show _ = (0 : Int) - ((_ + 0 : Nat) : Int)
        omega
      · rw [handsOver, h.held_eq, h.held_eq, Slots.taken]
        cases S fd .READ <;> cases S fd .WRITE <;> rfl
      · simp [clears]
  · rw [if_neg hfd] at hlookup
    have hnone : ∀ e, S fd e = none := fun e => by rw [h.registry.fresh fd (Nat.le_of_not_lt hfd)]
    refine ⟨_, .result false, S, .of_same h ?_ rfl rfl (hkeep (.inl hnone)).1 (fun _ _ => rfl)
      (hkeep (.inl hnone)).2⟩
    simp only [call, cancelAll, hlookup]
    rfl

theorem dispatch_callSpec {s : Traced σ φ ψ} {S : Nat → Slots σ φ ψ} (h : Inv s S) {a : Nat}
    {events : UInt32} {rt : Bool} (hlegal : Legal s.mgr (.dispatch a events rt)) :
    ∃ m' r S', CallSpec s S (.dispatch a events rt) m' r S' := by
  obtain ⟨ha, hcovered⟩ := hlegal
  have hlt := h.registry.table a ha
  obtain ⟨p, hp⟩ := realEvents_eq events
  have hall : ∀ e, p e = true → (S a e).isSome := by
    rw [hp, h.registry.ok a] at hcovered
    have hsub : eventSet (fun e => p e && !(S a e).isSome) = 0 :=
      (eventSet_and_not _ _).symm.trans hcovered
    intro e he
    have hno := (eventSet_eq_zero _).mp hsub e
    rwa [he, Bool.true_and, Bool.not_eq_false'] at hno
  -- the context of the report is that of the descriptor of its number
  have hclears : ∀ fd e, clears s.mgr (.dispatch a events rt) fd e = true ↔
      rt = true ∧ fd = a ∧ p e = true := by
    intro fd e
    have hfd : s.mgr.lookup fd = some a ↔ fd = a := by
      rw [h.lookup_eq]
      split
      · exact Option.some_inj
      · exact iff_of_false nofun (by omega)
    rw [clears, decide_eq_true_iff, hfd, hp, ne_eq, eventSet_and_bit, Bool.not_eq_false]
  have hhands : handsOver s.mgr (.dispatch a events rt) = if rt then (S a).taken p else [] := by
    rw [handsOver, hp, triggered_eq h.registry.ok]
  rcases (S a).found_any_or p rt with hdo | ⟨hsome, rfl⟩
  · refine ⟨_, .done, S, .of_same h ?_ rfl rfl ?_ (fun _ _ => rfl) fun fd e hc => ?_⟩
    · simp only [call, dispatch_same h.registry.ok hp hdo]
      rfl
    · rw [hhands]
      rcases hdo with hnone | rfl
      · rw [Slots.taken_of_none hnone]
        exact ite_self _
      · rfl
    · obtain ⟨hrt, rfl, he⟩ := (hclears fd e).mp hc
      exact hdo.resolve_right (by simp [hrt]) e he
  · refine ⟨_, .done, _, .of_store h hlt ((S a).without p) (-((S a).taken p).length)
      ((S a).taken p) ?_ ?_ ?_ rfl hhands (fun _ _ => rfl)
      (fun fd e hc => ((hclears fd e).mp hc).2.1) fun e => ?_⟩
    · simp only [call, dispatch_ok h.registry.ok hp hsome hall, h.fd a hlt]
      rfl
    · show _ + (_ + 0) = _ + 0
      rw [add_zero, add_zero, (S a).tasks_without p]
    · show _ = (0 : Int) - ((_ + 0 : Nat) : Int)
      omega
    · have hiff := hclears a e
      rw [Slots.without]
      exact if_congr ⟨fun he => hiff.mpr ⟨rfl, rfl, he⟩, fun hc => (hiff.mp hc).2.2⟩ rfl rfl

theorem call_spec {s : Traced σ φ ψ} {S : Nat → Slots σ φ ψ} (h : Inv s S) {c : Call σ φ ψ}
    (hlegal : Legal s.mgr c) : ∃ m' r S', CallSpec s S c m' r S' := by
  cases c with
  | addEvent fd e cb env rt => exact addEvent_callSpec h hlegal
  | delEvent fd e rt => exact delEvent_callSpec h fd e rt
  | cancelEvent fd e rt => exact cancelEvent_callSpec h fd e rt
  | cancelAll fd rt => exact cancelAll_callSpec h fd rt
  | dispatch a events rt => exact dispatch_callSpec h hlegal

/-! ## Runs -/

theorem Step.spec {s s' : Traced σ φ ψ} {S : Nat → Slots σ φ ψ} (h : Inv s S)
    {c : Call σ φ ψ} {r : Ret} (hstep : Step s (c, r) s') :
    ∃ S', CallSpec s S c s'.mgr r S' ∧ Inv s' S' := by
  obtain ⟨hlegal, hcall, hreg, hdel⟩ := hstep
  obtain ⟨m', r', S', hspec⟩ := call_spec h hlegal
  have heq := hspec.run.symm.trans hcall
  rw [Except.ok.injEq, Prod.mk.injEq] at heq
  obtain ⟨hm, hr⟩ := heq
  subst hm
  dsimp only at hr hreg hdel
  subst hr
  refine ⟨S', hspec, ?_⟩
  have hinv := hspec.inv
  rwa [← hreg, ← hdel] at hinv

theorem run_inv {ls : List (Call σ φ ψ × Ret)} {s : Traced σ φ ψ} (h : Run Step start ls s) :
    ∃ S, Inv s S := by
  refine h.invariant (I := fun s => ∃ S, Inv s S) ?_ ⟨_, inv_start⟩
  rintro s ⟨c, r⟩ s' ⟨S, hS⟩ hstep
  obtain ⟨S', -, hinv⟩ := hstep.spec hS
  exact ⟨S', hinv⟩

/-- What the table shows of the registrations. -/
theorem Inv.sum_registrations {s : Traced σ φ ψ} {S : Nat → Slots σ φ ψ} (h : Inv s S) :
    (s.mgr.m_fdContexts.map fun a => (s.mgr.heap a).registrations).sum =
      pending s.mgr.next S := by
  have hctx : (fun a => (s.mgr.heap a).registrations) = fun a => (S a).tasks := by
    funext a
    rw [h.registry.ok a, FdContext.registrations_ofSlots]
  rw [h.table, hctx, pending_eq_sum]

theorem Inv.sum_bitCount {s : Traced σ φ ψ} {S : Nat → Slots σ φ ψ} (h : Inv s S) :
    (s.mgr.m_fdContexts.map fun a => (s.mgr.heap a).bitCount).sum =
      (pending s.mgr.next S).card := by
  have hctx : (fun a => (s.mgr.heap a).bitCount) = fun a => (S a).tasks.card := by
    funext a
    rw [h.registry.ok a, FdContext.bitCount_ofSlots]
  have hmap := map_list_sum Multiset.cardHom ((List.range s.mgr.next).map fun a => (S a).tasks)
  rw [h.table, hctx, pending_eq_sum]
  rw [List.map_map] at hmap
  exact hmap.symm

theorem Inv.table_eq {s : Traced σ φ ψ} {S : Nat → Slots σ φ ψ} (h : Inv s S) {fd a : Nat}
    (ha : s.mgr.m_fdContexts[fd]? = some a) : a = fd ∧ fd < s.mgr.next := by
  rw [h.table] at ha
  obtain ⟨hlt, hget⟩ := List.getElem?_eq_some_iff.mp ha
  rw [List.getElem_range] at hget
  rw [List.length_range] at hlt
  exact ⟨hget.symm, hlt⟩

/-- After every run: the counter is the number of event bits set; every context is well formed;
`epoll` was last told the event bits of each descriptor; every registration ever made is still
registered, was handed to its scheduler or was deleted, once; the next call, whichever it is, goes
through, clears and hands over what it is about and nothing else, and changes nothing if its
`epoll_ctl` fails. -/
theorem events_invariant {ls : List (Call σ φ ψ × Ret)} {s : Traced σ φ ψ}
    (h : Run Step start ls s) :
    s.mgr.m_pendingEventCount =
        ((s.mgr.m_fdContexts.map fun a => (s.mgr.heap a).bitCount).sum : Nat) ∧
      (∀ a ∈ s.mgr.m_fdContexts, (s.mgr.heap a).WellFormed) ∧
      (∀ fd a, s.mgr.m_fdContexts[fd]? = some a → (s.mgr.heap a).fd = fd ∧
        s.mgr.interest fd = if (s.mgr.heap a).events = 0 then none
          else some (EPOLLET ||| (s.mgr.heap a).events)) ∧
      s.registered = (s.mgr.scheduled : Multiset (σ × Task φ ψ)) + s.deleted +
        (s.mgr.m_fdContexts.map fun a => (s.mgr.heap a).registrations).sum ∧
      (∀ c, Legal s.mgr c → ∃ r s', Step s (c, r) s') ∧
      ∀ c r s', Step s (c, r) s' → Effect s.mgr c s'.mgr ∧
        (c.rt = false → Same s.mgr s'.mgr) := by
  obtain ⟨S, hS⟩ := run_inv h
  refine ⟨?_, ?_, ?_, ?_, ?_, ?_⟩
  · rw [hS.registry.count, hS.sum_bitCount]
  · intro a _
    rw [hS.registry.ok a]
    exact FdContext.wellFormed_ofSlots _ _
  · intro fd a ha
    obtain ⟨rfl, hlt⟩ := hS.table_eq ha
    refine ⟨hS.fd a hlt, ?_⟩
    rw [hS.interest, hS.registry.ok a]
    rfl
  · rw [hS.law, hS.sum_registrations]
  · intro c hlegal
    obtain ⟨m', r, S', hspec⟩ := call_spec hS hlegal
    exact ⟨r, ⟨m', _, _⟩, hlegal, hspec.run, rfl, rfl⟩
  · intro c r s' hstep
    obtain ⟨S', hspec, -⟩ := hstep.spec hS
    exact ⟨hspec.effect hS, hspec.fail⟩

instance (m : IOManager σ φ ψ) (c : Call σ φ ψ) : Decidable (Legal m c) :=
  match c with
  | .addEvent fd event _ env _ => inferInstanceAs (Decidable (env.scheduler.isSome ∧
      env.exec = true ∧ ∀ a ∈ m.lookup fd, (m.heap a).events &&& event.bit = 0))
  | .delEvent .. => .isTrue trivial
  | .cancelEvent .. => .isTrue trivial
  | .cancelAll .. => .isTrue trivial
  | .dispatch a events _ => inferInstanceAs (Decidable (a ∈ m.m_fdContexts ∧
      realEvents events &&& ~~~(m.heap a).events = 0))

/-- The step of a legal call with its result. -/
def Traced.next (s : Traced σ φ ψ) (l : Call σ φ ψ × Ret) : Option (Traced σ φ ψ) :=
  if Legal s.mgr l.1 then
    match s.mgr.call l.1 with
    | .ok (m, r) =>
      if r = l.2 then some ⟨m, s.registered + registers l.1 l.2, s.deleted + deletes s.mgr l.1 l.2⟩
      else none
    | .error _ => none
  else none

theorem Traced.next_sound (s : Traced σ φ ψ) (l : Call σ φ ψ × Ret) (s' : Traced σ φ ψ)
    (h : s.next l = some s') : Step s l s' := by
  unfold Traced.next at h
  split at h
  · rename_i hlegal
    split at h
    · rename_i m r hcall
      split at h <;> cases h
      rename_i hr
      exact ⟨hlegal, hr ▸ hcall, rfl, rfl⟩
    · cases h
  · cases h

/-- Both events of one descriptor and one of a descriptor beyond the table, with a failed
`epoll_ctl`, a hang-up and a deletion. -/
def sixCalls : List (Call Nat Nat Nat × Ret) :=
  [(.addEvent 3 .READ (some 7) ⟨some 0, 1, true⟩ true, .code 0),
    (.addEvent 40 .WRITE none ⟨some 0, 2, true⟩ true, .code 0),
    (.addEvent 3 .WRITE (some 8) ⟨some 0, 1, true⟩ true, .code 0),
    (.cancelEvent 3 .READ false, .result false), (.dispatch 3 EPOLLHUP true, .done),
    (.delEvent 40 .WRITE true, .result true)]

theorem events_invariant_sixCalls : ∃ s, Run Step start sixCalls s ∧
    s.mgr.m_pendingEventCount =
      ((s.mgr.m_fdContexts.map fun a => (s.mgr.heap a).bitCount).sum : Nat) := by
  have hsome : (exec Traced.next start sixCalls).isSome := by decide +kernel
  have hrun := Run.of_exec_isSome Traced.next_sound hsome
  exact ⟨_, hrun, (events_invariant hrun).1⟩

end IOManager

end Captain
