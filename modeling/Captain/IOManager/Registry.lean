import Captain.IOManager.Slots
import Mathlib.Algebra.BigOperators.Group.Finset.Basic
import Mathlib.Algebra.Order.Group.Multiset

/-!
# What is registered, over all contexts

`pending n S` collects the registrations of the contexts below `n`, as a multiset. `Registry m S`
is the invariant of the sections: the contexts store the registrations `S`, and
`m_pendingEventCount` is the number of registrations. A section that stores new registrations
keeps it if the counter changes by as many as there are more.
-/

namespace Captain

variable {σ φ ψ : Type}

/-- All registrations on one descriptor. -/
def Slots.tasks (r : Slots σ φ ψ) : Multiset (σ × Task φ ψ) :=
  ((r .READ).toList ++ (r .WRITE).toList : List (σ × Task φ ψ))

theorem Slots.tasks_none : Slots.tasks (fun _ => none : Slots σ φ ψ) = 0 := rfl

theorem Slots.tasks_insert {r : Slots σ φ ψ} {e : Event} (he : r e = none) (t : σ × Task φ ψ) :
    Slots.tasks (Function.update r e (some t)) = r.tasks + {t} := by
  cases e with
  | READ =>
    simp only [Slots.tasks, Function.update_self, he,
      Function.update_of_ne (show Event.WRITE ≠ .READ by simp), Option.toList]
    rw [add_comm]
    rfl
  | WRITE =>
    simp only [Slots.tasks, Function.update_self, he,
      Function.update_of_ne (show Event.READ ≠ .WRITE by simp), Option.toList, List.append_nil]
    rfl

theorem Slots.tasks_without (r : Slots σ φ ψ) (p : Event → Bool) :
    (r.without p).tasks + (r.taken p : Multiset (σ × Task φ ψ)) = r.tasks := by
  unfold Slots.tasks Slots.taken Slots.without
  cases p .READ <;> cases p .WRITE <;>
    simp [← Multiset.coe_add, add_comm]

theorem Slots.tasks_erase {r : Slots σ φ ψ} {e : Event} {t : σ × Task φ ψ} (he : r e = some t) :
    Slots.tasks (Function.update r e none) + {t} = r.tasks := by
  have h := r.tasks_without fun e' => e' == e
  rw [r.without_single] at h
  rw [← h]
  cases e <;> simp [Slots.taken, he]

theorem Slots.tasks_taken_all (r : Slots σ φ ψ) :
    (r.taken fun e => (r e).isSome : Multiset (σ × Task φ ψ)) = r.tasks := by
  have hnone : r.without (fun e => (r e).isSome) = fun _ => none := by
    funext e
    cases he : r e <;> simp [Slots.without, he]
  have h := r.tasks_without fun e => (r e).isSome
  rwa [hnone, Slots.tasks_none, zero_add] at h

/-- The event is not registered or `epoll_ctl` fails, or the registration goes. -/
theorem found_or (o : Option (σ × Task φ ψ)) (rt : Bool) :
    (o = none ∨ rt = false) ∨ ∃ t, o = some t ∧ rt = true := by
  cases o <;> cases rt <;> simp

theorem Slots.found_any_or (r : Slots σ φ ψ) (p : Event → Bool) (rt : Bool) :
    ((∀ e, p e = true → r e = none) ∨ rt = false) ∨ (∃ e, p e = true ∧ r e ≠ none) ∧ rt = true := by
  by_cases hsome : ∃ e, p e = true ∧ r e ≠ none
  · cases rt with
    | false => exact .inl (.inr rfl)
    | true => exact .inr ⟨hsome, rfl⟩
  · refine .inl (.inl fun e he => ?_)
    exact Classical.byContradiction fun hne => hsome ⟨e, he, hne⟩

/-! ## What a context shows -/

/-- What an event context holds: a scheduler with a callback or a fiber. -/
def EventContext.registration (ctx : EventContext σ φ ψ) : Option (σ × Task φ ψ) :=
  match ctx.scheduler, ctx.cb, ctx.fiber with
  | some s, some cb, _ => some (s, .cb cb)
  | some s, none, some fiber => some (s, .fiber fiber)
  | _, _, _ => none

namespace FdContext

/-- The number of event bits that are set. -/
def bitCount (c : FdContext σ φ ψ) : Nat :=
  (if c.events &&& Event.READ.bit = 0 then 0 else 1) +
    (if c.events &&& Event.WRITE.bit = 0 then 0 else 1)

/-- What the event contexts hold. -/
def registrations (c : FdContext σ φ ψ) : Multiset (σ × Task φ ψ) :=
  (c.read.registration.toList ++ c.write.registration.toList : List (σ × Task φ ψ))

theorem registration_ofSlot (o : Option (σ × Task φ ψ)) :
    (EventContext.ofSlot o).registration = o := by
  cases o with
  | none => rfl
  | some t => obtain ⟨s, cb | fiber⟩ := t <;> rfl

theorem registrations_ofSlots (fd : Nat) (r : Slots σ φ ψ) :
    (ofSlots fd r).registrations = r.tasks := by
  rw [registrations, ofSlots, registration_ofSlot, registration_ofSlot, Slots.tasks]

theorem bitCount_ofSlots (fd : Nat) (r : Slots σ φ ψ) :
    (ofSlots fd r).bitCount = r.tasks.card := by
  have hbit : ∀ e : Event, (if (ofSlots fd r).events &&& e.bit = 0 then 0 else 1) =
      (r e).toList.length := by
    intro e
    change (if r.events &&& e.bit = 0 then 0 else 1) = (r e).toList.length
    simp only [r.events_bit]
    cases r e <;> rfl
  rw [bitCount, hbit, hbit, Slots.tasks, Multiset.coe_card, List.length_append]

end FdContext

/-! ## What events find -/

namespace IOManager

/-- What the events of a report find registered. -/
def triggered (c : FdContext σ φ ψ) (real_events : UInt32) : List (σ × Task φ ψ) :=
  (if c.events &&& real_events &&& Event.READ.bit = 0 then [] else c.read.registration.toList) ++
    (if c.events &&& real_events &&& Event.WRITE.bit = 0 then [] else c.write.registration.toList)

theorem triggered_eq {m : IOManager σ φ ψ} {S : Nat → Slots σ φ ψ} (h : Ok m S) {a : Nat}
    (p : Event → Bool) : triggered (m.heap a) (eventSet p) = (S a).taken p := by
  have hbit : ∀ e : Event, (m.heap a).events &&& eventSet p &&& e.bit = 0 ↔
      ((S a e).isSome && p e) = false := by
    intro e
    rw [h a]
    show (S a).events &&& eventSet p &&& e.bit = 0 ↔ _
    rw [Slots.events, eventSet_and, eventSet_and_bit]
  have hread : (m.heap a).read.registration = S a .READ := by
    rw [h a]
    exact FdContext.registration_ofSlot _
  have hwrite : (m.heap a).write.registration = S a .WRITE := by
    rw [h a]
    exact FdContext.registration_ofSlot _
  unfold triggered Slots.taken
  simp only [hbit, hread, hwrite]
  congr 1
  · cases p .READ <;> cases S a .READ <;> rfl
  · cases p .WRITE <;> cases S a .WRITE <;> rfl

end IOManager

/-! ## All contexts -/

/-- The registrations of the contexts below `n`. -/
def pending (n : Nat) (S : Nat → Slots σ φ ψ) : Multiset (σ × Task φ ψ) :=
  ∑ a ∈ Finset.range n, (S a).tasks

theorem pending_eq_sum (n : Nat) (S : Nat → Slots σ φ ψ) :
    pending n S = ((List.range n).map fun a => (S a).tasks).sum := by
  rw [← Multiset.sum_coe, ← Multiset.map_coe]
  rfl

theorem pending_update {n a : Nat} (ha : a < n) {S : Nat → Slots σ φ ψ} {r : Slots σ φ ψ}
    {less more : Multiset (σ × Task φ ψ)} (hr : r.tasks + less = (S a).tasks + more) :
    pending n (Function.update S a r) + less = pending n S + more := by
  have hmem : a ∈ Finset.range n := Finset.mem_range.mpr ha
  have hrest : ∑ b ∈ (Finset.range n).erase a, (Function.update S a r b).tasks =
      ∑ b ∈ (Finset.range n).erase a, (S b).tasks := by
    apply Finset.sum_congr rfl
    intro b hb
    rw [Function.update_of_ne (Finset.ne_of_mem_erase hb)]
  have hnew := Finset.add_sum_erase _ (fun b => (Function.update S a r b).tasks) hmem
  have hold := Finset.add_sum_erase _ (fun b => (S b).tasks) hmem
  simp only [Function.update_self] at hnew
  rw [pending, pending, ← hnew, ← hold, hrest, add_right_comm, hr, add_right_comm]

theorem pending_le {n n' : Nat} (hn : n ≤ n') {S : Nat → Slots σ φ ψ}
    (hfresh : ∀ a, n ≤ a → S a = fun _ => none) : pending n' S = pending n S := by
  refine (Finset.sum_subset (Finset.range_subset_range.mpr hn) fun a _ ha => ?_).symm
  rw [hfresh a (by simpa using ha), Slots.tasks_none]

namespace IOManager

structure Registry (m : IOManager σ φ ψ) (S : Nat → Slots σ φ ψ) : Prop where
  ok : Ok m S
  fresh : ∀ a, m.next ≤ a → S a = fun _ => none
  table : ∀ a ∈ m.m_fdContexts, a < m.next
  count : m.m_pendingEventCount = ((pending m.next S).card : Int)

namespace Registry

variable {m : IOManager σ φ ψ} {S : Nat → Slots σ φ ψ}

theorem contextResize (h : Registry m S) (size : Nat) : Registry (m.contextResize size) S := by
  simp only [IOManager.contextResize]
  split
  · exact ⟨h.ok, h.fresh, fun a ha => h.table a (List.mem_of_mem_take ha), h.count⟩
  · refine ⟨fun a => ?_, fun a ha => h.fresh a (by dsimp only at ha; omega), fun a ha => ?_, ?_⟩
    · dsimp only
      split
      · rename_i hin
        rw [h.fresh a hin.1, FdContext.ofSlots_none]
      · exact h.ok a
    · rcases List.mem_append.mp ha with ha | ha
      · have := h.table a ha
        dsimp only
        omega
      · obtain ⟨i, hi, rfl⟩ := List.mem_map.mp ha
        rw [List.mem_range] at hi
        dsimp only
        omega
    · dsimp only
      rw [h.count, pending_le (Nat.le_add_right _ _) h.fresh]

theorem store (h : Registry m S) {a : Nat} (ha : a < m.next) (fd : Nat) {r : Slots σ φ ψ}
    {less more : Multiset (σ × Task φ ψ)} (hr : r.tasks + less = (S a).tasks + more)
    {count : Int} (hcount : count = (more.card : Int) - (less.card : Int))
    (out : List (σ × Task φ ψ)) :
    Registry (m.store a fd r count out) (Function.update S a r) := by
  refine ⟨h.ok.store a fd r count out, fun b hb => ?_, h.table, ?_⟩
  · have hne : b ≠ a := by
      rintro rfl
      exact absurd hb (Nat.not_le_of_lt ha)
    rw [Function.update_of_ne hne]
    exact h.fresh b hb
  · have hcard := congrArg Multiset.card (pending_update ha hr)
    rw [Multiset.card_add, Multiset.card_add] at hcard
    have hc := h.count
    change m.m_pendingEventCount + count = ((pending m.next (Function.update S a r)).card : Int)
    omega

end Registry

theorem registry_empty : Registry (⟨fun _ => {}, 0, [], 0, fun _ => none, []⟩ : IOManager σ φ ψ)
    (fun _ _ => none) where
  ok _ := (FdContext.ofSlots_none 0).symm
  fresh _ _ := rfl
  table a ha := by cases ha
  count := rfl

theorem registry_new : Registry (new : IOManager σ φ ψ) (fun _ _ => none) :=
  registry_empty.contextResize 32

end IOManager

end Captain
