import Captain.IOManager.Threads

/-!
# The table of contexts between threads

`addEvent` tests the size of the table in one section and resizes it in another, to a size that
depends on its own descriptor only.

* `contexts_kept_iff`: the table keeps all its contexts along a run exactly when every resize of
  the run makes the table as long as it finds it, or longer; the index used after a resize is
  always in range.
-/

namespace Captain.IOManager

open Transition

variable {σ φ ψ ι : Type}

namespace Threads

variable [DecidableEq ι]

/-- The table is no shorter, and every context is still at its index. -/
def Kept (m m' : IOManager σ φ ψ) : Prop :=
  m.m_fdContexts.length ≤ m'.m_fdContexts.length ∧
    ∀ fd a : Nat, m.m_fdContexts[fd]? = some a → m'.m_fdContexts[fd]? = some a

theorem kept_iff_prefix {m m' : IOManager σ φ ψ} :
    Kept m m' ↔ m.m_fdContexts <+: m'.m_fdContexts := by
  constructor
  · intro h
    apply List.prefix_iff_getElem?.mpr
    intro i hi
    exact h.2 i _ (List.getElem?_eq_getElem hi)
  · intro h
    refine ⟨h.length_le, fun fd a ha => ?_⟩
    obtain ⟨hlt, rfl⟩ := List.getElem?_eq_some_iff.mp ha
    exact List.prefix_iff_getElem?.mp h fd hlt

/-- Only a resize changes the table. -/
theorem Step.prefix_iff {s s' : Threads σ φ ψ ι} {S : Nat → Slots σ φ ψ} {l : Label σ φ ψ ι}
    (hstep : Step s l s') (h : Inv s S) : s.mgr.m_fdContexts <+: s'.mgr.m_fdContexts ↔
      ∀ i op, l = .grow i → s.pc i = .growing op → s.mgr.m_fdContexts.length ≤ op.fd * 3 / 2 := by
  cases hstep with
  | @grow i op hpc m a hrun =>
    obtain ⟨hm, -⟩ := growAndGet_eq hrun
    show _ <+: m.m_fdContexts ↔ _
    rw [hm, prefix_contextResize_iff]
    constructor
    · intro hle j op' hl hj
      cases hl
      rw [hpc] at hj
      cases hj
      exact hle
    · intro hall
      exact hall i op rfl hpc
  | @lock i a op hpc rt m hrun =>
    have hp := h.pc i
    rw [hpc] at hp
    obtain ⟨S', hsends⟩ := Sends.of_run h.registry hp.2 hp.1 hrun
    show _ <+: m.m_fdContexts ↔ _
    rw [hsends.table]
    exact iff_of_true List.prefix_rfl fun _ _ hl => by cases hl
  | @dispatch i a events rest hpc rt m hrun =>
    have hp := h.pc i
    rw [hpc] at hp
    obtain ⟨S', hsends⟩ := Sends.of_dispatch h.registry (hp _ List.mem_cons_self) hrun
    show _ <+: m.m_fdContexts ↔ _
    rw [hsends.table]
    exact iff_of_true List.prefix_rfl fun _ _ hl => by cases hl
  | find => exact iff_of_true List.prefix_rfl fun _ _ hl => by cases hl
  | wait => exact iff_of_true List.prefix_rfl fun _ _ hl => by cases hl
  | abort => exact iff_of_true List.prefix_rfl fun _ _ hl => by cases hl

/-- While all resizes of a run are large enough, the table keeps its contexts. -/
theorem run_extends {s u v : Threads σ φ ψ ι} {pre mid post : List (Label σ φ ψ ι)}
    (hu : Run Step init pre u) (hv : Run Step u mid v) (hs : Run Step v post s)
    (hgrow : ∀ pre' i post' w op, pre ++ mid ++ post = pre' ++ .grow i :: post' →
      Run Step init pre' w → (∃ w', Step w (.grow i) w' ∧ Run Step w' post' s) →
      w.pc i = .growing op → w.mgr.m_fdContexts.length ≤ op.fd * 3 / 2) :
    u.mgr.m_fdContexts <+: v.mgr.m_fdContexts := by
  have hsteps := hv.of_steps (P := fun w _ w' => w.mgr.m_fdContexts <+: w'.mgr.m_fdContexts) (by
    rintro pre' l post' w w' rfl hw hstep hw'
    have hrun : Run Step init (pre ++ pre') w := Run.append_iff.mpr ⟨u, hu, hw⟩
    obtain ⟨S, hS⟩ := run_inv hrun
    apply (hstep.prefix_iff hS).mpr
    rintro i op rfl hpc
    refine hgrow _ i (post' ++ post) w op (by simp) hrun ⟨w', hstep, ?_⟩ hpc
    exact Run.append_iff.mpr ⟨v, hw', hs⟩)
  refine hsteps.invariant (I := fun w => u.mgr.m_fdContexts <+: w.mgr.m_fdContexts) ?_
    List.prefix_rfl
  exact fun w l w' hw hstep => hw.trans hstep.2

/-- The contexts of the table stay where they are, between any two states of a run, exactly when
every resize of the run finds a table of at most the size it makes. The index that is used after a
resize is always in range. -/
theorem contexts_kept_iff {ls : List (Label σ φ ψ ι)} {s : Threads σ φ ψ ι}
    (h : Run Step init ls s) :
    ((∀ pre mid post u v, ls = pre ++ mid ++ post → Run Step init pre u → Run Step u mid v →
        Run Step v post s → Kept u.mgr v.mgr) ↔
      ∀ pre i post u op, ls = pre ++ .grow i :: post → Run Step init pre u →
        (∃ v, Step u (.grow i) v ∧ Run Step v post s) → u.pc i = .growing op →
        u.mgr.m_fdContexts.length ≤ op.fd * 3 / 2) ∧
      ∀ i op, s.pc i = .growing op → ∃ m a, s.mgr.growAndGet op.fd = .ok (m, a) := by
  refine ⟨⟨?_, ?_⟩, ?_⟩
  · rintro hkept pre i post u op rfl hu ⟨v, hstep, hv⟩ hpc
    obtain ⟨S, hS⟩ := run_inv hu
    have hpre := kept_iff_prefix.mp
      (hkept pre [.grow i] post u v (by simp) hu (.cons hstep (.nil v)) hv)
    exact (hstep.prefix_iff hS).mp hpre i op rfl hpc
  · rintro hgrow pre mid post u v rfl hu hmid hv
    exact kept_iff_prefix.mpr (run_extends hu hmid hv hgrow)
  · intro i op hpc
    obtain ⟨S, hS⟩ := run_inv h
    have hp := hS.pc i
    rw [hpc] at hp
    exact growAndGet_ok hp.2

/-- Two threads find the table too short for their descriptors, 70 and 40. The first makes it long
enough for 70; the second, for 40. -/
def growBoth : List (Label Nat Nat Nat Bool) :=
  [.find true (addRead 70), .find false (addRead 40), .grow true] ++ [.grow false] ++ []

theorem run_growBoth : ∃ u s : Threads Nat Nat Nat Bool,
    Run Step init [.find true (addRead 70), .find false (addRead 40), .grow true] u ∧
      Run Step u [.grow false] s ∧ ¬Kept u.mgr s.mgr := by
  refine ⟨?_, ?_, ?_, ?_, ?_⟩
  rotate_left 2
  · refine .cons (.find rfl ⟨rfl, rfl⟩) ?_
    refine .cons (.find rfl ⟨rfl, rfl⟩) ?_
    refine .cons (.grow rfl rfl) ?_
    exact .nil _
  · refine .cons (.grow rfl rfl) ?_
    exact .nil _
  · intro hkept
    have hle := hkept.1
    revert hle
    decide +kernel

theorem contexts_kept_iff_growBoth : ∃ s, Run Step init growBoth s ∧
    ¬∀ pre i post u op, growBoth = pre ++ .grow i :: post → Run Step init pre u →
      (∃ v, Step u (.grow i) v ∧ Run Step v post s) → u.pc i = .growing op →
      u.mgr.m_fdContexts.length ≤ op.fd * 3 / 2 := by
  obtain ⟨u, s, hu, hs, hnot⟩ := run_growBoth
  have hrun : Run Step init growBoth s := by
    rw [growBoth, List.append_nil]
    exact Run.append_iff.mpr ⟨u, hu, hs⟩
  refine ⟨s, hrun, fun hgrow => hnot ?_⟩
  exact (contexts_kept_iff hrun).1.mpr hgrow _ _ _ u s rfl hu hs (.nil s)

theorem not_contexts_kept : ¬∀ (ls : List (Label Nat Nat Nat Bool)) (s : Threads Nat Nat Nat Bool),
    Run Step init ls s → ∀ pre post u, ls = pre ++ post → Run Step init pre u →
      Run Step u post s → Kept u.mgr s.mgr := by
  intro hall
  obtain ⟨u, s, hu, hs, hnot⟩ := run_growBoth
  exact hnot (hall _ s (Run.append_iff.mpr ⟨u, hu, hs⟩) _ _ u rfl hu hs)

end Threads

end Captain.IOManager
