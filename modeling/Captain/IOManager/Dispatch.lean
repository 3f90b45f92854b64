import Captain.IOManager.Threads

/-!
# Dispatch between threads

`epoll_wait` reports a snapshot, and an error or a hang-up stands for both directions. Before the
mutex of the reported context is taken, other threads may change what is registered.

* `dispatch_safe_iff`: in a run no dispatch fails the assertion of `triggerEvent` exactly when each
  dispatch whose `epoll_ctl` succeeds finds all events of its report registered, or none. The
  counter is the number of registered events in any case.
-/

namespace Captain.IOManager

open Transition

variable {σ φ ψ ι : Type}

/-- All events of the report are registered, or none is. -/
def Covered (m : IOManager σ φ ψ) (a : Nat) (events : UInt32) : Prop :=
  (m.heap a).events &&& realEvents events = 0 ∨ realEvents events &&& ~~~(m.heap a).events = 0

/-- The registered events of the report are taken out and handed over, each once, and the counter
goes down by their number. -/
structure Dispatched (m : IOManager σ φ ψ) (a : Nat) (events : UInt32) (m' : IOManager σ φ ψ) :
    Prop where
  left : (m'.heap a).events = (m.heap a).events &&& ~~~realEvents events
  scheduled : m'.scheduled = m.scheduled ++ triggered (m.heap a) (realEvents events)
  count : m'.m_pendingEventCount = m.m_pendingEventCount -
    (((m.heap a).bitCount : Int) - ((m'.heap a).bitCount : Int))
  other : ∀ b, b ≠ a → m'.heap b = m.heap b

section

variable {m : IOManager σ φ ψ} {S : Nat → Slots σ φ ψ}

theorem covered_iff (h : Ok m S) {a : Nat} {events : UInt32} {p : Event → Bool}
    (hp : realEvents events = eventSet p) : Covered m a events ↔
      (∀ e, p e = true → S a e = none) ∨ ∀ e, p e = true → (S a e).isSome := by
  have hev : (m.heap a).events = eventSet fun e => (S a e).isSome := by
    rw [h a]
    rfl
  unfold Covered
  rw [hev, hp, eventSet_and, eventSet_and_not, eventSet_eq_zero, eventSet_eq_zero]
  refine or_congr (forall_congr' fun e => ?_) (forall_congr' fun e => ?_)
  · cases p e <;> simp
  · cases p e <;> simp

theorem bitCount_eq (h : Ok m S) (a : Nat) : (m.heap a).bitCount = (S a).tasks.card := by
  rw [h a]
  exact FdContext.bitCount_ofSlots _ _

/-- A dispatch goes through exactly when its report is covered or `epoll_ctl` fails. -/
theorem dispatch_ok_iff (h : Ok m S) (a : Nat) (events : UInt32) (rt : Bool) :
    (∃ m', m.dispatch a events rt = .ok m') ↔ (rt = true → Covered m a events) := by
  obtain ⟨p, hp⟩ := realEvents_eq events
  rw [covered_iff h hp]
  rcases (S a).found_any_or p rt with hdo | ⟨hsome, rfl⟩
  · refine iff_of_true ⟨m, dispatch_same h hp hdo⟩ ?_
    rintro rfl
    exact .inl (hdo.resolve_right (by simp))
  · by_cases hall : ∀ e, p e = true → (S a e).isSome
    · exact iff_of_true ⟨_, dispatch_ok h hp hsome hall⟩ fun _ => .inr hall
    · obtain ⟨e, he⟩ := not_forall.mp hall
      rw [Classical.not_imp, Bool.not_eq_true, Option.isSome_eq_false_iff,
        Option.isNone_iff_eq_none] at he
      have hfault := dispatch_fault h hp hsome ⟨e, he⟩
      refine iff_of_false ?_ fun hcov => ?_
      · rw [hfault]
        exact fun ⟨_, hm⟩ => by cases hm
      · obtain ⟨e', he', hne⟩ := hsome
        exact (hcov rfl).elim (fun hn => hne (hn e' he')) hall

theorem dispatched (h : Ok m S) {a : Nat} {events : UInt32} {m' : IOManager σ φ ψ}
    (hrun : m.dispatch a events true = .ok m') : Dispatched m a events m' := by
  obtain ⟨p, hp⟩ := realEvents_eq events
  have hcov := (covered_iff h hp).mp ((dispatch_ok_iff h a events true).mp ⟨m', hrun⟩ rfl)
  have hleft : (m.heap a).events &&& ~~~realEvents events = ((S a).without p).events := by
    rw [h a, hp]
    exact (S a).events_without p
  have htriggered : triggered (m.heap a) (realEvents events) = (S a).taken p := by
    rw [hp, triggered_eq h]
  by_cases hsome : ∃ e, p e = true ∧ S a e ≠ none
  · have hall := hcov.resolve_left fun hn => hsome.elim fun e he => he.2 (hn e he.1)
    rw [dispatch_ok h hp hsome hall] at hrun
    cases hrun
    have hnew := bitCount_eq (h.put a ((S a).without p) (-((S a).taken p).length)
      ((S a).taken p)) a
    have hcard := congrArg Multiset.card ((S a).tasks_without p)
    rw [Multiset.card_add, Multiset.coe_card] at hcard
    rw [Function.update_self] at hnew
    refine ⟨?_, ?_, ?_, fun b hb => Function.update_of_ne hb _ _⟩
    · rw [hleft]
      show (Function.update m.heap a _ a).events = _
      rw [Function.update_self]
      rfl
    · rw [htriggered]
      rfl
    · have hcount : ((m.store a (m.heap a).fd ((S a).without p) (-((S a).taken p).length)
          ((S a).taken p)).heap a).bitCount = ((S a).without p).tasks.card := hnew
      rw [hcount, bitCount_eq h]
      show m.m_pendingEventCount + -(((S a).taken p).length : Int) = _
      omega
  · have hnone : ∀ e, p e = true → S a e = none := fun e he =>
      Classical.byContradiction fun hne => hsome ⟨e, he, hne⟩
    rw [dispatch_same h hp (.inl hnone)] at hrun
    cases hrun
    have hwithout : (S a).without p = S a := by
      funext e
      unfold Slots.without
      split
      · exact (hnone e ‹_›).symm
      · rfl
    refine ⟨?_, ?_, ?_, fun _ _ => rfl⟩
    · rw [hleft, hwithout, h a]
      rfl
    · rw [htriggered, Slots.taken_of_none hnone, List.append_nil]
    · omega

end

namespace Threads

variable [DecidableEq ι]

omit [DecidableEq ι] in
/-- The number of registered events is the counter. -/
theorem Inv.count {s : Threads σ φ ψ ι} {S : Nat → Slots σ φ ψ} (h : Inv s S) :
    s.mgr.m_pendingEventCount =
      (∑ a ∈ Finset.range s.mgr.next, (s.mgr.heap a).bitCount : Nat) := by
  rw [h.registry.count, pending, Multiset.card_sum]
  congr 1
  exact Finset.sum_congr rfl fun a _ => (bitCount_eq h.registry.ok a).symm

/-- A thread whose dispatch failed its assertion makes no further step. -/
theorem Step.aborted {s s' : Threads σ φ ψ ι} {l : Label σ φ ψ ι} (hstep : Step s l s') {i : ι}
    (hi : s.pc i = .aborted) : s'.pc i = .aborted := by
  have hother : ∀ {j : ι} {m : IOManager σ φ ψ} {p : Pc σ φ ψ}, s.pc j ≠ .aborted →
      (s.goto m j p).pc i = .aborted := by
    intro j m p hj
    have hne : i ≠ j := by
      rintro rfl
      exact hj hi
    exact (Function.update_of_ne hne _ _).trans hi
  cases hstep with
  | find hpc => exact hother (by simp [hpc])
  | grow hpc => exact hother (by simp [hpc])
  | lock hpc => exact hother (by simp [hpc])
  | wait hpc => exact hother (by simp [hpc])
  | dispatch hpc => exact hother (by simp [hpc])
  | abort hpc => exact hother (by simp [hpc])

theorem run_aborted {s s' : Threads σ φ ψ ι} {ls : List (Label σ φ ψ ι)} (h : Run Step s ls s')
    {i : ι} (hi : s.pc i = .aborted) : s'.pc i = .aborted :=
  h.invariant (I := fun s => s.pc i = .aborted) (fun _ _ _ hs hstep => hstep.aborted hs) hi

/-- A step aborts its thread exactly when it is a dispatch that is not covered. -/
theorem Step.aborts_iff {s s' : Threads σ φ ψ ι} {S : Nat → Slots σ φ ψ} {l : Label σ φ ψ ι}
    (hstep : Step s l s') (h : Inv s S) (hs : ∀ i, s.pc i ≠ .aborted) :
    (∀ i, s'.pc i ≠ .aborted) ↔ ∀ i a events rest, l = .dispatch i true →
      s.pc i = .reporting ((a, events) :: rest) → Covered s.mgr a events := by
  have hgoto : ∀ {j : ι} {m : IOManager σ φ ψ} {p : Pc σ φ ψ}, p ≠ .aborted →
      ∀ i, (s.goto m j p).pc i ≠ .aborted := by
    intro j m p hp i
    show Function.update s.pc j p i ≠ .aborted
    by_cases hi : i = j
    · rw [hi, Function.update_self]
      exact hp
    · rw [Function.update_of_ne hi]
      exact hs i
  cases hstep with
  | @find i hpc op hop =>
    refine iff_of_true (hgoto ?_) fun _ _ _ _ hl => by cases hl
    unfold found
    split
    · simp
    · split <;> simp
  | grow hpc => exact iff_of_true (hgoto (by simp)) fun _ _ _ _ hl => by cases hl
  | lock hpc => exact iff_of_true (hgoto (by simp)) fun _ _ _ _ hl => by cases hl
  | wait hpc => exact iff_of_true (hgoto (by simp)) fun _ _ _ _ hl => by cases hl
  | @dispatch i a events rest hpc rt m hrun =>
    apply iff_of_true (hgoto (by split <;> simp))
    intro j a' events' rest' hl hj
    cases hl
    rw [hpc] at hj
    cases hj
    exact (dispatch_ok_iff h.registry.ok a events true).mp ⟨m, hrun⟩ rfl
  | @abort i a events rest hpc rt e hrun =>
    apply iff_of_false (fun hall => hall i (Function.update_self ..))
    intro hcov
    have hok := (dispatch_ok_iff h.registry.ok a events rt).mpr fun hrt =>
      hcov i a events rest (by rw [hrt]) hpc
    obtain ⟨m, hm⟩ := hok
    rw [hm] at hrun
    cases hrun

/-- After every run: the counter is the number of registered events; the run had no failed
assertion in a dispatch exactly when each dispatch whose `epoll_ctl` succeeded found the events of
its report all registered or none; and a dispatch that goes through triggers what is registered of
its report. -/
theorem dispatch_safe_iff {ls : List (Label σ φ ψ ι)} {s : Threads σ φ ψ ι}
    (h : Run Step init ls s) :
    s.mgr.m_pendingEventCount =
        (∑ a ∈ Finset.range s.mgr.next, (s.mgr.heap a).bitCount : Nat) ∧
      ((∀ i, s.pc i ≠ .aborted) ↔
        ∀ pre i post u a events rest, ls = pre ++ .dispatch i true :: post →
          Run Step init pre u → (∃ v, Step u (.dispatch i true) v ∧ Run Step v post s) →
          u.pc i = .reporting ((a, events) :: rest) → Covered u.mgr a events) ∧
      ∀ i a events rest rt, s.pc i = .reporting ((a, events) :: rest) →
        ((∃ m', s.mgr.dispatch a events rt = .ok m') ↔ (rt = true → Covered s.mgr a events)) ∧
        ∀ m', s.mgr.dispatch a events rt = .ok m' →
          if rt then Dispatched s.mgr a events m' else m' = s.mgr := by
  obtain ⟨S, hS⟩ := run_inv h
  refine ⟨hS.count, ⟨?_, ?_⟩, ?_⟩
  · rintro hs pre i post u a events rest rfl hu ⟨v, hstep, hv⟩ hpc
    obtain ⟨T, hT⟩ := run_inv hu
    have hnot : ∀ j, v.pc j ≠ .aborted := fun j hj => hs j (run_aborted hv hj)
    have hu' : ∀ j, u.pc j ≠ .aborted := fun j hj => hnot j (hstep.aborted hj)
    exact (hstep.aborts_iff hT hu').mp hnot i a events rest rfl hpc
  · intro hcov
    have hsteps := h.of_steps (P := fun u l _ => (∃ T, Inv u T) ∧ ∀ i a events rest,
        l = .dispatch i true → u.pc i = .reporting ((a, events) :: rest) →
          Covered u.mgr a events) (by
      rintro pre l post u v rfl hu hstep hv
      refine ⟨run_inv hu, ?_⟩
      rintro i a events rest rfl hpc
      exact hcov pre i post u a events rest rfl hu ⟨v, hstep, hv⟩ hpc)
    refine hsteps.invariant (I := fun u => ∀ i, u.pc i ≠ .aborted) ?_ fun i hi => by cases hi
    rintro u l v hu ⟨hstep, ⟨T, hT⟩, hall⟩
    exact (hstep.aborts_iff hT hu).mpr hall
  · intro i a events rest rt _
    refine ⟨dispatch_ok_iff hS.registry.ok a events rt, fun m' hrun => ?_⟩
    cases rt with
    | true => exact dispatched hS.registry.ok hrun
    | false =>
      obtain ⟨p, hp⟩ := realEvents_eq events
      rw [dispatch_same hS.registry.ok hp (.inr rfl)] at hrun
      cases hrun
      rfl

/-- One thread registers a read event; an error is reported for the descriptor to another. -/
def errorOnRead : List (Label Nat Nat Nat Bool) :=
  [.find true (addRead 3), .lock true true, .wait false [(3, EPOLLERR)], .dispatch false true]

theorem run_errorOnRead : ∃ s : Threads Nat Nat Nat Bool, Run Step init errorOnRead s ∧
    s.pc false = .aborted := by
  refine ⟨?_, ?_, ?_⟩
  rotate_left 1
  · refine .cons (.find rfl ⟨rfl, rfl⟩) ?_
    refine .cons (.lock (m := _) rfl rfl) ?_
    refine .cons (.wait rfl ?_) ?_
    rotate_left 1
    · refine .cons (.abort rfl (e := .assertTrigger) rfl) ?_
      exact .nil _
    · intro r hr
      obtain rfl := List.mem_singleton.mp hr
      exact ⟨by decide +kernel, _, rfl, by decide +kernel⟩
  · rfl

theorem dispatch_safe_iff_errorOnRead : ∃ s, Run Step init errorOnRead s ∧
    ¬∀ pre i post u a events rest, errorOnRead = pre ++ .dispatch i true :: post →
      Run Step init pre u → (∃ v, Step u (.dispatch i true) v ∧ Run Step v post s) →
      u.pc i = .reporting ((a, events) :: rest) → Covered u.mgr a events := by
  obtain ⟨s, hrun, hs⟩ := run_errorOnRead
  refine ⟨s, hrun, fun hcov => ?_⟩
  exact (dispatch_safe_iff hrun).2.1.mpr hcov false hs

theorem not_dispatch_safe : ¬∀ (ls : List (Label Nat Nat Nat Bool)) (s : Threads Nat Nat Nat Bool),
    Run Step init ls s → ∀ i, s.pc i ≠ .aborted := by
  intro hall
  obtain ⟨s, hrun, hs⟩ := run_errorOnRead
  exact hall _ s hrun false hs

end Threads

end Captain.IOManager
