import Captain.Scheduler.Pool
import Mathlib.Algebra.BigOperators.Group.Finset.Piecewise
import Mathlib.Algebra.Order.Group.Multiset
import Mathlib.Tactic.Abel

/-!
# Where the entries of the queue go

A `Ledger` is a pool with three accounts of entries: all that were ever pushed on `m_fibers`, those
whose fiber was swapped in, and those that were discarded because their fiber had ended.

* `entries_conserved`: after every run, whatever the tasks do, what was pushed is what is queued,
  held by the workers, swapped in or discarded, and `m_activeThreadCount` is the number of workers
  between taking an entry and decrementing. Only a scan removes entries, one that is for its worker
  and whose fiber is not executing.
-/

namespace Captain.Scheduler

open Transition

variable {φ ι : Type}

/-- The entry that a worker holds: taken, and not swapped in or discarded yet. -/
def Pc.held : Pc φ ι → Multiset (FiberAndThread φ Nat ι)
  | .holding ft | .on ft _ .entering => {ft}
  | _ => 0

/-- The worker is between `++m_activeThreadCount` and `--m_activeThreadCount`. -/
def Pc.active : Pc φ ι → Bool
  | .holding _ => true
  | .on _ _ stage => stage = .entering ∨ stage = .executing ∨ stage = .leaving ∨ stage = .returned
  | _ => false

namespace Pool

/-- The entries that a step pushes. -/
def pushes (s : Pool φ ι) : Move φ ι → Multiset (FiberAndThread φ Nat ι)
  | .schedule ft => {ft}
  | .requeue i =>
    match s.pc i with
    | .on _ fiber _ => {⟨.fiber fiber, none⟩}
    | _ => 0
  | _ => 0

/-- The entries whose fiber a step swaps in. -/
def swaps (s : Pool φ ι) : Move φ ι → Multiset (FiberAndThread φ Nat ι)
  | .swapIn i =>
    match s.pc i with
    | .on ft _ _ => {ft}
    | _ => 0
  | _ => 0

/-- The fiber has run its callback to the end. -/
def ended (s : Pool φ ι) (fiber : Nat) : Bool := (s.heap fiber).any fun f => f.m_state.ended

/-- The entries that a step discards. -/
def discards (s : Pool φ ι) : Move φ ι → Multiset (FiberAndThread φ Nat ι)
  | .choose i _ =>
    match s.pc i with
    | .holding ft =>
      match ft.task with
      | .fiber fiber => if s.ended fiber then {ft} else 0
      | .cb _ => 0
    | _ => 0
  | _ => 0

/-- What a step does to `m_fibers`: it appends what it pushes, or it is a scan that takes one entry,
which is for its worker and whose fiber is not executing. -/
def Kept (s : Pool φ ι) (l : Move φ ι) (s' : Pool φ ι) : Prop :=
  (∃ more, s'.m_fibers = s.m_fibers ++ more) ∨
    ∃ i front ft back, l = .scan i ∧ s.m_fibers = front ++ ft :: back ∧
      s'.m_fibers = front ++ back ∧ s'.pc i = .holding ft ∧
      (ft.thread = none ∨ ft.thread = some i) ∧
      ∀ fiber, ft.task = .fiber fiber → s.exec fiber = false

/-! ## One step -/

/-- What a step does to the entries and to the counter, in terms of the one worker that moves. -/
inductive Effect [DecidableEq ι] (s : Pool φ ι) (l : Move φ ι) (s' : Pool φ ι) : Prop
  | still (hpc : s'.pc = s.pc) (hcount : s'.m_activeThreadCount = s.m_activeThreadCount)
      (hentries : (s'.m_fibers : Multiset (FiberAndThread φ Nat ι)) + (s.swaps l + s.discards l) =
        s.m_fibers + s.pushes l)
  | moved (i : ι) (pc : Pc φ ι) (hpc : s'.pc = Function.update s.pc i pc)
      (hcount : s'.m_activeThreadCount =
        s.m_activeThreadCount + pc.active.toNat - (s.pc i).active.toNat)
      (hentries : (s'.m_fibers : Multiset (FiberAndThread φ Nat ι)) + pc.held +
        (s.swaps l + s.discards l) = s.m_fibers + (s.pc i).held + s.pushes l)

variable [DecidableEq ι] {s s' : Pool φ ι} {l : Move φ ι}

/-- A step that only moves its worker and counts. -/
theorem Effect.of_move (i : ι) (pc : Pc φ ι) (hpc : s'.pc = Function.update s.pc i pc)
    (hfibers : s'.m_fibers = s.m_fibers) (hcount : s'.m_activeThreadCount =
      s.m_activeThreadCount + pc.active.toNat - (s.pc i).active.toNat)
    (hheld : pc.held + (s.swaps l + s.discards l) = (s.pc i).held + s.pushes l) :
    Effect s l s' := by
  apply Effect.moved i pc hpc hcount
  rw [hfibers, add_assoc, hheld, add_assoc]

theorem Step.effect (h : Step s l s') : Effect s l s' := by
  cases h with
  | make hnew cb => exact .still rfl rfl rfl
  | schedule ft =>
    refine .still rfl rfl ?_
    simp [push, swaps, discards, pushes]
    rfl
  | @take i hpc ft hft =>
    refine .moved i (.holding ft) rfl ?_ ?_
    · simp [hpc, Pc.active, goto, countActive]
    · obtain ⟨front, back, hq, hrest, -⟩ := scan_some hft
      have htaken : (s.scan i).m_fibers = front ++ back := hrest
      have hperm : ((front ++ back) ++ [ft]).Perm s.m_fibers := by
        rw [hq, List.append_assoc]
        exact (List.perm_append_singleton ft back).append_left front
      simp only [goto, countActive, htaken, hpc, Pc.held, swaps, discards, pushes, add_zero]
      exact Multiset.coe_eq_coe.mpr hperm
  | @pass i hpc hft =>
    refine .of_move i .idle rfl rfl ?_ ?_
    · simp [hpc, Pc.active, goto]
    · simp [hpc, Pc.held, swaps, discards, pushes]
  | @chooseFiber i ft hpc fiber htask f hf hstate =>
    refine .of_move i (.on ft fiber .entering) rfl rfl ?_ ?_
    · simp [hpc, Pc.active, goto]
    · simp [hpc, Pc.held, swaps, discards, pushes, htask, ended, hf, hstate]
  | @discard i ft hpc fiber htask f hf hstate =>
    refine .of_move i .scanning rfl rfl ?_ ?_
    · simp [hpc, Pc.active, goto, countActive]
      omega
    · simp [hpc, Pc.held, swaps, discards, pushes, htask, ended, hf, hstate]
  | @reuse i ft hpc cb htask fiber hcb f f' hf hreset =>
    refine .of_move i (.on ft fiber .entering) rfl rfl ?_ ?_
    · simp [hpc, Pc.active, goto, setFiber]
    · simp [hpc, Pc.held, swaps, discards, pushes, htask]
  | @fresh i ft hpc cb htask hcb fiber hnew =>
    refine .of_move i (.on ft fiber .entering) rfl rfl ?_ ?_
    · simp [hpc, Pc.active, goto, setFiber, setCbFiber]
    · simp [hpc, Pc.held, swaps, discards, pushes, htask]
  | @swapIn i ft fiber hpc f f' hf hswap =>
    refine .of_move i (.on ft fiber .executing) rfl rfl ?_ ?_
    · simp [hpc, Pc.active, goto, setFiber]
    · simp [hpc, Pc.held, swaps, discards, pushes]
  | @yield i ft fiber hpc f hf ready =>
    refine .of_move i (.on ft fiber .leaving) rfl rfl ?_ ?_
    · simp [hpc, Pc.active, goto, setFiber]
    · simp [hpc, Pc.held, swaps, discards, pushes]
  | @finish i ft fiber hpc f hf thrown =>
    refine .of_move i (.on ft fiber .leaving) rfl rfl ?_ ?_
    · simp [hpc, Pc.active, goto, setFiber]
    · simp [hpc, Pc.held, swaps, discards, pushes]
  | @swapOut i ft fiber hpc f hf =>
    refine .of_move i (.on ft fiber .returned) rfl rfl ?_ ?_
    · simp [hpc, Pc.active, goto, setFiber]
    · simp [hpc, Pc.held, swaps, discards, pushes]
  | @decrement i ft fiber hpc =>
    refine .of_move i (.on ft fiber .deciding) rfl rfl ?_ ?_
    · simp [hpc, Pc.active, goto, countActive]
      omega
    · simp [hpc, Pc.held, swaps, discards, pushes]
  | @ready i ft fiber hpc f hf hstate =>
    refine .of_move i (.on ft fiber .requeueing) rfl rfl ?_ ?_
    · simp [hpc, Pc.active, goto]
    · simp [hpc, Pc.held, swaps, discards, pushes]
  | @endFiber i ft fiber hpc f hf hstate htask =>
    refine .of_move i .scanning rfl rfl ?_ ?_
    · simp [hpc, Pc.active, goto]
    · simp [hpc, Pc.held, swaps, discards, pushes]
  | @endCb i ft fiber hpc f f' hf hstate cb htask hreset =>
    refine .of_move i .scanning rfl rfl ?_ ?_
    · simp [hpc, Pc.active, goto, setFiber]
    · simp [hpc, Pc.held, swaps, discards, pushes]
  | @hold i ft fiber hpc f hf hready hstate =>
    refine .of_move i (.on ft fiber .settling) rfl rfl ?_ ?_
    · simp [hpc, Pc.active, goto]
    · simp [hpc, Pc.held, swaps, discards, pushes]
  | @requeue i ft fiber hpc =>
    obtain ⟨-, hpcs, hfibers, hcount⟩ := dropCbFiber_frame (s.push ⟨.fiber fiber, none⟩) i ft.task
    apply Effect.moved i .scanning
    · rw [goto, hpcs]
      rfl
    · rw [hpc, goto, hcount]
      simp [Pc.active, push]
    · rw [goto, hfibers]
      simp [hpc, Pc.held, swaps, discards, pushes, push]
      rfl
  | @settle i ft fiber hpc f hf =>
    obtain ⟨-, hpcs, hfibers, hcount⟩ :=
      dropCbFiber_frame (s.setFiber fiber { f with m_state := .HOLD }) i ft.task
    apply Effect.of_move i .scanning
    · rw [goto, hpcs]
      rfl
    · exact hfibers
    · rw [hpc, goto, hcount]
      simp [Pc.active, setFiber]
    · simp [hpc, Pc.held, swaps, discards, pushes]
  | @wake i hpc =>
    refine .of_move i .scanning rfl rfl ?_ ?_
    · simp [hpc, Pc.active, goto]
    · simp [hpc, Pc.held, swaps, discards, pushes]

theorem Step.kept (h : Step s l s') : Kept s l s' := by
  have hsame : s'.m_fibers = s.m_fibers → Kept s l s' := fun heq => .inl ⟨[], by simp [heq]⟩
  cases h with
  | schedule ft => exact .inl ⟨[ft], rfl⟩
  | @take i hpc ft hft =>
    obtain ⟨front, back, hq, hrest, hexec, hthread⟩ := scan_some hft
    refine .inr ⟨i, front, ft, back, rfl, hq, hrest, Function.update_self .., hthread, ?_⟩
    intro fiber htask
    rwa [htask] at hexec
  | @requeue i ft fiber hpc =>
    refine .inl ⟨[⟨.fiber fiber, none⟩], ?_⟩
    exact (dropCbFiber_frame (s.push ⟨.fiber fiber, none⟩) i ft.task).2.2.1
  | @settle i ft fiber hpc f hf =>
    exact hsame
      (dropCbFiber_frame (s.setFiber fiber { f with m_state := .HOLD }) i ft.task).2.2.1
  | _ => exact hsame rfl

/-- A sum over the workers when one of them moves. -/
theorem sum_update [Fintype ι] {M : Type*} [AddCommMonoid M] (g : Pc φ ι → M) (pcs : ι → Pc φ ι)
    (i : ι) (pc : Pc φ ι) :
    (∑ j, g (Function.update pcs i pc j)) + g (pcs i) = (∑ j, g (pcs j)) + g pc := by
  have hnew := Finset.add_sum_erase Finset.univ (fun j => g (Function.update pcs i pc j))
    (Finset.mem_univ i)
  have hold := Finset.add_sum_erase Finset.univ (fun j => g (pcs j)) (Finset.mem_univ i)
  have hrest : ∑ j ∈ Finset.univ.erase i, g (Function.update pcs i pc j) =
      ∑ j ∈ Finset.univ.erase i, g (pcs j) := by
    apply Finset.sum_congr rfl
    intro j hj
    rw [Function.update_of_ne (Finset.ne_of_mem_erase hj)]
  rw [Function.update_self] at hnew
  rw [← hnew, ← hold, hrest, add_right_comm, add_comm (g pc), add_right_comm, add_right_comm,
    add_comm (g (pcs i)), add_right_comm]

variable [Fintype ι]

/-- `m_activeThreadCount` is the number of active workers. -/
def Counted (s : Pool φ ι) : Prop :=
  s.m_activeThreadCount = ((∑ i, (s.pc i).active.toNat : Nat) : Int)

theorem Step.counted (hstep : Step s l s') (h : Counted s) : Counted s' := by
  unfold Counted at h ⊢
  cases hstep.effect with
  | still hpc hcount hentries => rw [hpc, hcount, h]
  | moved i pc hpc hcount hentries =>
    have hactive := sum_update (fun pc => pc.active.toNat) s.pc i pc
    rw [← hpc] at hactive
    rw [hcount, h]
    omega

omit [DecidableEq ι] in
theorem counted_init : Counted (init : Pool φ ι) := by
  show (0 : Int) = ((∑ _i : ι, 0 : Nat) : Int)
  rw [Finset.sum_const_zero]
  rfl

omit [DecidableEq ι] in
theorem Counted.card (h : Counted s) :
    s.m_activeThreadCount = ((Finset.univ.filter fun i => (s.pc i).active = true).card : Int) := by
  rw [h, Finset.card_filter]
  congr 1
  apply Finset.sum_congr rfl
  intro i _
  cases (s.pc i).active <;> rfl

end Pool

/-! ## Runs -/

structure Ledger (φ ι : Type) where
  pool : Pool φ ι
  pushed : Multiset (FiberAndThread φ Nat ι)
  swapped : Multiset (FiberAndThread φ Nat ι)
  discarded : Multiset (FiberAndThread φ Nat ι)

namespace Ledger

def init : Ledger φ ι := ⟨.init, 0, 0, 0⟩

variable [DecidableEq ι]

/-- A step of the pool, with its entries in the accounts. -/
def Step (b : Ledger φ ι) (l : Move φ ι) (b' : Ledger φ ι) : Prop :=
  Pool.Step b.pool l b'.pool ∧ b'.pushed = b.pushed + b.pool.pushes l ∧
    b'.swapped = b.swapped + b.pool.swaps l ∧ b'.discarded = b.discarded + b.pool.discards l

theorem step_of_pool (b : Ledger φ ι) {l : Move φ ι} {s' : Pool φ ι} (h : Pool.Step b.pool l s') :
    Step b l ⟨s', b.pushed + b.pool.pushes l, b.swapped + b.pool.swaps l,
      b.discarded + b.pool.discards l⟩ := ⟨h, rfl, rfl, rfl⟩

variable [Fintype ι]

structure Inv (b : Ledger φ ι) : Prop where
  entries : b.pushed = b.pool.m_fibers + (∑ i, (b.pool.pc i).held) + b.swapped + b.discarded
  count : Pool.Counted b.pool

/-- **Step lemma.** -/
theorem Step.inv {b b' : Ledger φ ι} {l : Move φ ι} (hstep : Step b l b') (h : Inv b) :
    Inv b' := by
  obtain ⟨hpool, hpushed, hswapped, hdiscarded⟩ := hstep
  have hlaw := h.entries
  refine ⟨?_, hpool.counted h.count⟩
  cases hpool.effect with
  | still hpc hcount hentries =>
    rw [hpushed, hswapped, hdiscarded, hpc, hlaw]
    calc _ = b.pool.m_fibers + b.pool.pushes l + (∑ i, (b.pool.pc i).held) + b.swapped +
          b.discarded := by abel
      _ = _ := by
          rw [← hentries]
          abel
  | moved i pc hpc hcount hentries =>
    have hheld := Pool.sum_update Pc.held b.pool.pc i pc
    rw [← hpc] at hheld
    apply add_right_cancel (b := (b.pool.pc i).held)
    rw [hpushed, hswapped, hdiscarded, hlaw]
    calc _ = b.pool.m_fibers + (b.pool.pc i).held + b.pool.pushes l + (∑ i, (b.pool.pc i).held) +
          b.swapped + b.discarded := by abel
      _ = b'.pool.m_fibers + (b.pool.swaps l + b.pool.discards l) +
          ((∑ i, (b.pool.pc i).held) + pc.held) + b.swapped + b.discarded := by
          rw [← hentries]
          abel
      _ = _ := by
          rw [← hheld]
          abel

omit [DecidableEq ι] in
theorem inv_init : Inv (init : Ledger φ ι) where
  entries := by
    show (0 : Multiset (FiberAndThread φ Nat ι)) = 0 + (∑ _i : ι, 0) + 0 + 0
    rw [Finset.sum_const_zero, add_zero, add_zero, add_zero]
  count := Pool.counted_init

theorem run_inv {ls : List (Move φ ι)} {b : Ledger φ ι} (h : Run Step init ls b) : Inv b :=
  h.invariant (I := Inv) (fun _ _ _ hb hstep => hstep.inv hb) inv_init

/-- After every run: each entry ever pushed is queued, held by a worker, swapped in or discarded,
as often as it was pushed; `m_activeThreadCount` is the number of workers between taking an entry
and decrementing; and the next step, whichever it is, leaves the queue as it is but for what it
pushes, unless a scan takes an entry for its worker whose fiber is not executing. -/
theorem entries_conserved (ls : List (Move φ ι)) {b : Ledger φ ι} (h : Run Step init ls b) :
    b.pushed = b.pool.m_fibers + (∑ i, (b.pool.pc i).held) + b.swapped + b.discarded ∧
      b.pool.m_activeThreadCount =
        ((Finset.univ.filter fun i => (b.pool.pc i).active = true).card : Int) ∧
      ∀ l b', Step b l b' → Pool.Kept b.pool l b'.pool := by
  have hinv := run_inv h
  exact ⟨hinv.entries, hinv.count.card, fun l b' hstep => hstep.1.kept⟩

/-- A fiber is scheduled for one of two workers, which swaps it in. -/
theorem entries_conserved_pinned : ∃ b : Ledger Nat Bool,
    b.swapped = {⟨.fiber 0, some true⟩} ∧
      b.pushed = b.pool.m_fibers + (∑ i, (b.pool.pc i).held) + b.swapped + b.discarded := by
  refine ⟨?_, ?_, (entries_conserved [.make 0 7, .schedule ⟨.fiber 0, some true⟩,
    .scan true, .choose true 0, .swapIn true] ?_).1⟩
  rotate_left 2
  · refine .cons (step_of_pool _ (.make rfl 7)) ?_
    refine .cons (step_of_pool _ (.schedule _ ⟨.fiber 0, some true⟩)) ?_
    refine .cons (step_of_pool _ (.take rfl rfl)) ?_
    refine .cons (step_of_pool _ (.chooseFiber rfl rfl rfl rfl)) ?_
    refine .cons (step_of_pool _ (.swapIn rfl rfl rfl)) ?_
    exact .nil _
  · rfl

end Ledger

end Captain.Scheduler
