import Captain.Transition
import Mathlib.Logic.Function.Basic

/-!
# `ConfigVar::setValue` (`captain/include/config.h`)

Threads call `setValue` and `fromString` on one variable. `setValue` compares and calls the
listeners under the read lock, and stores the value later, under the write lock. A step is one
access to what the threads share; the lock is held by the threads whose program counters say so.

A listener copies the new value to a mirror variable, as `_RequestSizeIniter` does, or it does
something else and may throw; the exception ends the call.

* `mirrors_agree`: if no call starts to notify while another one is to store a different value, and
  no listener throws in a call that has copied to a mirror, then every mirror has the variable's
  value once all calls have returned.
-/

namespace Captain

open Transition

variable {α ι : Type}

inductive Listener
  | mirror (k : Nat)
  | other
  deriving DecidableEq, Repr

/-- Where a thread stands in `setValue`; `n` listeners have been called. -/
inductive SetPc (α : Type)
  | idle
  | entering (v : α)
  | comparing (v : α)
  | notifying (v : α) (n : Nat)
  | unlocked (v : α)
  | storing (v : α)

/-- The thread has the read lock. -/
def SetPc.reads : SetPc α → Bool
  | .comparing _ | .notifying _ _ => true
  | _ => false

/-- The thread has the write lock. -/
def SetPc.writes : SetPc α → Bool
  | .storing _ => true
  | _ => false

/-- The value that the thread notifies of and has not stored yet. -/
def SetPc.pending : SetPc α → Option α
  | .notifying v _ | .unlocked v | .storing v => some v
  | _ => none

/-- The listeners that the thread has called and not stored the value yet. -/
def SetPc.called (m_cbs : List Listener) : SetPc α → List Listener
  | .notifying _ n => m_cbs.take n
  | .unlocked _ | .storing _ => m_cbs
  | _ => []

/-- A `ConfigVar` with the mirrors of its listeners, which `m_cbs` has in the order of their
identifiers. -/
structure ConfigVar (α ι : Type) where
  m_val : α
  m_cbs : List Listener
  mirror : Nat → α
  pc : ι → SetPc α

inductive Access (α ι : Type)
  | setValue (i : ι) (v : α)
  | fromString (i : ι) (val : String)
  | readLock (i : ι)
  | compare (i : ι)
  | call (i : ι)
  | throw (i : ι)
  | unlock (i : ι)
  | writeLock (i : ι)
  | store (i : ι)

namespace ConfigVar

/-- The listeners have copied the value before they are added. -/
def init (val : α) (m_cbs : List Listener) : ConfigVar α ι :=
  ⟨val, m_cbs, fun _ => val, fun _ => .idle⟩

/-- A call that is about to notify finds no other call that is to store a different value; a
listener throws only in a call that has copied to no mirror. -/
def Ordered (s : ConfigVar α ι) : Access α ι → Prop
  | .compare i => ∀ v j w, s.pc i = .comparing v → v ≠ s.m_val → (s.pc j).pending = some w → v = w
  | .throw i => ∀ k, .mirror k ∉ (s.pc i).called s.m_cbs
  | _ => True

variable [DecidableEq ι]

def goto (s : ConfigVar α ι) (i : ι) (pc : SetPc α) : ConfigVar α ι :=
  { s with pc := Function.update s.pc i pc }

/-- `fromStr` is `FromStr`, which throws where it has no value. -/
inductive Step (fromStr : String → Option α) :
    ConfigVar α ι → Access α ι → ConfigVar α ι → Prop
  | setValue {s : ConfigVar α ι} {i : ι} (hpc : s.pc i = .idle) (v : α) :
      Step fromStr s (.setValue i v) (s.goto i (.entering v))
  | fromString {s : ConfigVar α ι} {i : ι} (hpc : s.pc i = .idle) {val : String} {v : α}
      (hval : fromStr val = some v) : Step fromStr s (.fromString i val) (s.goto i (.entering v))
  | reject {s : ConfigVar α ι} {i : ι} (hpc : s.pc i = .idle) {val : String}
      (hval : fromStr val = none) : Step fromStr s (.fromString i val) s
  | readLock {s : ConfigVar α ι} {i : ι} {v : α} (hpc : s.pc i = .entering v)
      (hfree : ∀ j, (s.pc j).writes = false) :
      Step fromStr s (.readLock i) (s.goto i (.comparing v))
  -- `if(v == m_val) return;`
  | same {s : ConfigVar α ι} {i : ι} {v : α} (hpc : s.pc i = .comparing v) (heq : v = s.m_val) :
      Step fromStr s (.compare i) (s.goto i .idle)
  | differs {s : ConfigVar α ι} {i : ι} {v : α} (hpc : s.pc i = .comparing v)
      (hne : v ≠ s.m_val) : Step fromStr s (.compare i) (s.goto i (.notifying v 0))
  | copy {s : ConfigVar α ι} {i : ι} {v : α} {n : Nat} (hpc : s.pc i = .notifying v n) {k : Nat}
      (hcb : s.m_cbs[n]? = some (.mirror k)) :
      Step fromStr s (.call i)
        ({ s with mirror := Function.update s.mirror k v }.goto i (.notifying v (n + 1)))
  | other {s : ConfigVar α ι} {i : ι} {v : α} {n : Nat} (hpc : s.pc i = .notifying v n)
      (hcb : s.m_cbs[n]? = some .other) :
      Step fromStr s (.call i) (s.goto i (.notifying v (n + 1)))
  | throw {s : ConfigVar α ι} {i : ι} {v : α} {n : Nat} (hpc : s.pc i = .notifying v n)
      (hcb : s.m_cbs[n]? = some .other) : Step fromStr s (.throw i) (s.goto i .idle)
  | unlock {s : ConfigVar α ι} {i : ι} {v : α} {n : Nat} (hpc : s.pc i = .notifying v n)
      (hcb : s.m_cbs[n]? = none) : Step fromStr s (.unlock i) (s.goto i (.unlocked v))
  | writeLock {s : ConfigVar α ι} {i : ι} {v : α} (hpc : s.pc i = .unlocked v)
      (hfree : ∀ j, (s.pc j).reads = false ∧ (s.pc j).writes = false) :
      Step fromStr s (.writeLock i) (s.goto i (.storing v))
  | store {s : ConfigVar α ι} {i : ι} {v : α} (hpc : s.pc i = .storing v) :
      Step fromStr s (.store i) ({ s with m_val := v }.goto i .idle)

/-! ## The invariant -/

/-- The calls that are to store agree on the value, and a mirror that differs from the variable has
been copied to by one of them. -/
structure Agreed (s : ConfigVar α ι) : Prop where
  one : ∀ i j v w, (s.pc i).pending = some v → (s.pc j).pending = some w → v = w
  copied : ∀ i v k, (s.pc i).pending = some v → .mirror k ∈ (s.pc i).called s.m_cbs →
    s.mirror k = v
  source : ∀ k, .mirror k ∈ s.m_cbs → s.mirror k = s.m_val ∨
    ∃ i, .mirror k ∈ (s.pc i).called s.m_cbs
  fresh : ∀ i v n, s.pc i = .notifying v n → v ≠ s.m_val
  lock : ∀ i j, (s.pc i).writes = true → (s.pc j).reads = false

omit [DecidableEq ι] in
theorem agreed_init (val : α) (m_cbs : List Listener) :
    Agreed (init val m_cbs : ConfigVar α ι) where
  one _ _ _ _ hv := by cases hv
  copied _ _ _ hv := by cases hv
  source _ _ := .inl rfl
  fresh _ _ _ hpc := by cases hpc
  lock _ _ hw := by cases hw

variable {s s' : ConfigVar α ι} {i : ι} {fromStr : String → Option α} {l : Access α ι}

theorem pc_goto (s : ConfigVar α ι) (i : ι) (pc : SetPc α) (j : ι) :
    j = i ∧ (s.goto i pc).pc j = pc ∨ j ≠ i ∧ (s.goto i pc).pc j = s.pc j := by
  by_cases hj : j = i
  · subst hj
    exact .inl ⟨rfl, Function.update_self ..⟩
  · exact .inr ⟨hj, Function.update_of_ne hj _ _⟩

/-- A thread moves on, and may copy to a mirror. -/
theorem Agreed.advance (h : Agreed s) (pc : SetPc α) (mirror : Nat → α)
    (hone : ∀ v, pc.pending = some v → ∀ j w, j ≠ i → (s.pc j).pending = some w → v = w)
    (hframe : ∀ j w k, (s.pc j).pending = some w → s.mirror k = w → mirror k = w)
    (hcopied : ∀ v k, pc.pending = some v → .mirror k ∈ pc.called s.m_cbs → mirror k = v)
    (hsource : ∀ k, .mirror k ∈ pc.called s.m_cbs ∨
      mirror k = s.mirror k ∧ .mirror k ∉ (s.pc i).called s.m_cbs)
    (hfresh : ∀ v n, pc = .notifying v n → v ≠ s.m_val)
    (hwrites : pc.writes = true → pc.reads = false ∧ ∀ j, (s.pc j).reads = false)
    (hreads : pc.reads = true → ∀ j, (s.pc j).writes = false) :
    Agreed ({ s with mirror := mirror }.goto i pc) where
  one a b v w ha hb := by
    rcases pc_goto { s with mirror := mirror } i pc a with ⟨-, hpca⟩ | ⟨hna, hpca⟩ <;>
      rcases pc_goto { s with mirror := mirror } i pc b with ⟨-, hpcb⟩ | ⟨hnb, hpcb⟩ <;>
        rw [hpca] at ha <;> rw [hpcb] at hb
    · rw [ha] at hb
      exact Option.some.inj hb
    · exact hone v ha b w hnb hb
    · exact (hone w hb a v hna ha).symm
    · exact h.one a b v w ha hb
  copied a v k ha hk := by
    rcases pc_goto { s with mirror := mirror } i pc a with ⟨-, hpc⟩ | ⟨hna, hpc⟩ <;>
      rw [hpc] at ha hk
    · exact hcopied v k ha hk
    · exact hframe a v k ha (h.copied a v k ha hk)
  source k hk := by
    rcases hsource k with hnew | ⟨hkeep, hno⟩
    · refine .inr ⟨i, ?_⟩
      rcases pc_goto { s with mirror := mirror } i pc i with ⟨-, hpc⟩ | ⟨hi, -⟩
      · rw [hpc]
        exact hnew
      · exact absurd rfl hi
    · rcases h.source k hk with heq | ⟨a, ha⟩
      · exact .inl (hkeep.trans heq)
      · refine .inr ⟨a, ?_⟩
        rcases pc_goto { s with mirror := mirror } i pc a with ⟨rfl, -⟩ | ⟨-, hpc⟩
        · exact absurd ha hno
        · rw [hpc]
          exact ha
  fresh a v n ha := by
    rcases pc_goto { s with mirror := mirror } i pc a with ⟨-, hpc⟩ | ⟨-, hpc⟩ <;> rw [hpc] at ha
    · exact hfresh v n ha
    · exact h.fresh a v n ha
  lock a b ha := by
    rcases pc_goto { s with mirror := mirror } i pc a with ⟨-, hpca⟩ | ⟨-, hpca⟩ <;>
      rcases pc_goto { s with mirror := mirror } i pc b with ⟨-, hpcb⟩ | ⟨-, hpcb⟩ <;>
        rw [hpca] at ha <;> rw [hpcb]
    · exact (hwrites ha).1
    · exact (hwrites ha).2 b
    · cases hr : pc.reads with
      | false => rfl
      | true =>
        rw [hreads hr a] at ha
        cases ha
    · exact h.lock a b ha

/-- A thread moves to a point where it has nothing to store, from one where it has copied to no
mirror. -/
theorem Agreed.goto (h : Agreed s) (pc : SetPc α) (hno : ∀ k, .mirror k ∉ (s.pc i).called s.m_cbs)
    (hpending : pc.pending = none) (hwrites : pc.writes = false)
    (hreads : pc.reads = true → ∀ j, (s.pc j).writes = false) : Agreed (s.goto i pc) := by
  apply h.advance pc s.mirror
  · intro v hv
    rw [hpending] at hv
    cases hv
  · exact fun _ _ _ _ hk => hk
  · intro v k hv
    rw [hpending] at hv
    cases hv
  · exact fun k => .inr ⟨rfl, hno k⟩
  · rintro v n rfl
    cases hpending
  · intro hw
    rw [hwrites] at hw
    cases hw
  · exact hreads

omit [DecidableEq ι] in
theorem not_writes_of_reads (h : Agreed s) (hi : (s.pc i).reads = true) (j : ι) :
    (s.pc j).writes = false := by
  cases hw : (s.pc j).writes with
  | false => rfl
  | true =>
    rw [h.lock j i hw] at hi
    cases hi

theorem Agreed.store (h : Agreed s) {v : α} (hpc : s.pc i = .storing v) :
    Agreed ({ s with m_val := v }.goto i .idle) := by
  have hpending : (s.pc i).pending = some v := by rw [hpc]; rfl
  have hcalled : (s.pc i).called s.m_cbs = s.m_cbs := by rw [hpc]; rfl
  have hmirror : ∀ k, .mirror k ∈ s.m_cbs → s.mirror k = v := by
    intro k hk
    exact h.copied i v k hpending (hcalled.symm ▸ hk)
  have hquiet : ∀ j, (s.pc j).reads = false := fun j => h.lock i j (by rw [hpc]; rfl)
  refine ⟨?_, ?_, fun k hk => .inl (hmirror k hk), ?_, ?_⟩
  · intro a b w x ha hb
    rcases pc_goto { s with m_val := v } i .idle a with ⟨-, hpca⟩ | ⟨-, hpca⟩ <;>
      rcases pc_goto { s with m_val := v } i .idle b with ⟨-, hpcb⟩ | ⟨-, hpcb⟩ <;>
        rw [hpca] at ha <;> rw [hpcb] at hb
    · cases ha
    · cases ha
    · cases hb
    · exact h.one a b w x ha hb
  · intro a w k ha hk
    rcases pc_goto { s with m_val := v } i .idle a with ⟨-, hpca⟩ | ⟨-, hpca⟩ <;>
      rw [hpca] at ha hk
    · cases ha
    · exact h.copied a w k ha hk
  · intro a w n ha
    rcases pc_goto { s with m_val := v } i .idle a with ⟨-, hpca⟩ | ⟨-, hpca⟩ <;> rw [hpca] at ha
    · cases ha
    · have hr := hquiet a
      rw [ha] at hr
      cases hr
  · intro a b ha
    rcases pc_goto { s with m_val := v } i .idle b with ⟨-, hpcb⟩ | ⟨-, hpcb⟩ <;> rw [hpcb]
    · rfl
    · exact hquiet b

/-- A listener has been called. -/
theorem Agreed.call (h : Agreed s) {v : α} {n : Nat} (hpc : s.pc i = .notifying v n)
    (mirror : Nat → α) (hmirror : ∀ k, .mirror k ∈ s.m_cbs.take (n + 1) → mirror k = v)
    (hframe : ∀ k, mirror k = s.mirror k ∨ mirror k = v ∧ .mirror k ∈ s.m_cbs.take (n + 1)) :
    Agreed ({ s with mirror := mirror }.goto i (.notifying v (n + 1))) := by
  have hpending : (s.pc i).pending = some v := by rw [hpc]; rfl
  apply h.advance
  · intro w hw j x hj hx
    cases hw
    exact h.one i j v x hpending hx
  · intro j w k hj hk
    rcases hframe k with hkeep | ⟨hv, -⟩
    · exact hkeep.trans hk
    · exact hv.trans (h.one i j v w hpending hj)
  · intro w k hw hk
    cases hw
    exact hmirror k hk
  · intro k
    by_cases hk : .mirror k ∈ s.m_cbs.take (n + 1)
    · exact .inl hk
    · refine .inr ⟨(hframe k).resolve_right fun hv => hk hv.2, fun hold => hk ?_⟩
      rw [hpc] at hold
      exact (List.take_subset_take_left s.m_cbs (Nat.le_succ n)) hold
  · intro w m hw
    cases hw
    exact h.fresh i v n hpc
  · intro hw
    cases hw
  · intro _ j
    exact not_writes_of_reads h (by rw [hpc]; rfl) j

/-- A call that has notified goes on to store. -/
theorem Agreed.proceed (h : Agreed s) {v : α} (pc : SetPc α)
    (hpending : (s.pc i).pending = some v) (hcalled : (s.pc i).called s.m_cbs = s.m_cbs)
    (hpc : pc = .unlocked v ∨ pc = .storing v ∧ ∀ j, (s.pc j).reads = false) :
    Agreed (s.goto i pc) := by
  have hv : pc.pending = some v ∧ pc.called s.m_cbs = s.m_cbs ∧ pc.reads = false := by
    rcases hpc with rfl | ⟨rfl, -⟩ <;> exact ⟨rfl, rfl, rfl⟩
  apply h.advance pc s.mirror
  · intro w hw j x _ hx
    rw [hv.1] at hw
    cases hw
    exact h.one i j v x hpending hx
  · exact fun _ _ _ _ hk => hk
  · intro w k hw hk
    rw [hv.1] at hw
    cases hw
    rw [hv.2.1, ← hcalled] at hk
    exact h.copied i v k hpending hk
  · intro k
    rw [hv.2.1, hcalled]
    by_cases hk : .mirror k ∈ s.m_cbs
    · exact .inl hk
    · exact .inr ⟨rfl, hk⟩
  · rintro w n rfl
    rcases hpc with hpc | ⟨hpc, -⟩ <;> cases hpc
  · intro hw
    refine ⟨hv.2.2, ?_⟩
    rcases hpc with rfl | ⟨-, hquiet⟩
    · cases hw
    · exact hquiet
  · intro hr
    rw [hv.2.2] at hr
    cases hr

/-- **Step lemma.** -/
theorem Step.agreed (hstep : Step fromStr s l s') (hok : s.Ordered l) (h : Agreed s) :
    Agreed s' := by
  have hnone : ∀ {i : ι} {pc : SetPc α}, s.pc i = pc → pc.called s.m_cbs = [] →
      ∀ k, .mirror k ∉ (s.pc i).called s.m_cbs := by
    intro i pc hpc hcalled k hk
    rw [hpc, hcalled] at hk
    cases hk
  cases hstep with
  | @setValue i hpc v => exact h.goto _ (hnone hpc rfl) rfl rfl fun hr => by cases hr
  | @fromString i hpc val v hval =>
    exact h.goto _ (hnone hpc rfl) rfl rfl fun hr => by cases hr
  | reject hpc hval => exact h
  | @readLock i v hpc hfree => exact h.goto _ (hnone hpc rfl) rfl rfl fun _ => hfree
  | @same i v hpc heq => exact h.goto _ (hnone hpc rfl) rfl rfl fun hr => by cases hr
  | @differs i v hpc hne =>
    apply h.advance (.notifying v 0) s.mirror
    · intro w hw j x _ hx
      cases hw
      exact hok v j x hpc hne hx
    · exact fun _ _ _ _ hk => hk
    · intro w k _ hk
      cases hk
    · exact fun k => .inr ⟨rfl, hnone hpc rfl k⟩
    · intro w n hw
      cases hw
      exact hne
    · intro hw
      cases hw
    · intro _ j
      exact not_writes_of_reads h (by rw [hpc]; rfl) j
  | @copy i v n hpc k hcb =>
    have htake : s.m_cbs.take (n + 1) = s.m_cbs.take n ++ [.mirror k] := by
      rw [List.take_add_one, hcb]
      rfl
    apply h.call hpc
    · intro m hm
      by_cases hmk : m = k
      · rw [hmk, Function.update_self]
      · rw [Function.update_of_ne hmk]
        rw [htake, List.mem_append, List.mem_singleton] at hm
        apply h.copied i v m (by rw [hpc]; rfl)
        rw [hpc]
        exact hm.resolve_right fun heq => hmk (Listener.mirror.inj heq)
    · intro m
      by_cases hmk : m = k
      · rw [hmk, Function.update_self, htake]
        exact .inr ⟨rfl, List.mem_append_right _ List.mem_cons_self⟩
      · exact .inl (Function.update_of_ne hmk _ _)
  | @other i v n hpc hcb =>
    apply h.call hpc s.mirror
    · intro m hm
      rw [List.take_add_one, hcb, List.mem_append] at hm
      apply h.copied i v m (by rw [hpc]; rfl)
      rw [hpc]
      exact hm.resolve_right fun heq => by cases List.mem_singleton.mp heq
    · exact fun m => .inl rfl
  | @throw i v n hpc hcb => exact h.goto _ hok rfl rfl fun hr => by cases hr
  | @unlock i v n hpc hcb =>
    apply h.proceed (v := v) _ (by rw [hpc]; rfl) _ (.inl rfl)
    rw [hpc]
    exact List.take_of_length_le (List.getElem?_eq_none_iff.mp hcb)
  | @writeLock i v hpc hfree =>
    apply h.proceed (v := v) _ (by rw [hpc]; rfl) _ (.inr ⟨rfl, fun j => (hfree j).1⟩)
    rw [hpc]
    rfl
  | @store i v hpc => exact h.store hpc

theorem run_agreed {val : α} {m_cbs : List Listener} {ls : List (Access α ι)}
    (h : Run (Guard Ordered (Step fromStr)) (init val m_cbs) ls s) : Agreed s :=
  h.invariant (I := Agreed) (fun _ _ _ hs hstep => hstep.2.agreed hstep.1 hs)
    (agreed_init val m_cbs)

/-- In a run whose calls do not overlap with different values, and in which no listener throws after
its call has copied to a mirror, every mirror has the value of the variable whenever all calls have
returned. Had a listener thrown after that, the mirror would have been left with a value that the
variable does not have. -/
theorem mirrors_agree (val : α) (m_cbs : List Listener) (ls : List (Access α ι))
    (h : Run (Guard Ordered (Step fromStr)) (init val m_cbs) ls s) :
    ((∀ i, s.pc i = .idle) → ∀ k, .mirror k ∈ s.m_cbs → s.mirror k = s.m_val) ∧
      ∀ i k s', .mirror k ∈ (s.pc i).called s.m_cbs → Step fromStr s (.throw i) s' →
        s'.mirror k ≠ s'.m_val := by
  have hs := run_agreed h
  refine ⟨fun hidle k hk => ?_, fun i k s' hk hstep => ?_⟩
  · apply (hs.source k hk).resolve_right
    rintro ⟨i, hi⟩
    rw [hidle i] at hi
    cases hi
  · cases hstep with
    | @throw _ v n hpc hcb =>
      have hcopied := hs.copied i v k (by rw [hpc]; rfl) hk
      show s.mirror k ≠ s.m_val
      rw [hcopied]
      exact hs.fresh i v n hpc

/-- One thread sets the value; then a listener throws before the mirror is copied to. -/
def throwFirst : List (Access Nat Bool) :=
  [.setValue true 1, .readLock true, .compare true, .call true, .call true, .unlock true,
    .writeLock true, .store true, .setValue false 2, .readLock false, .compare false, .throw false]

theorem run_throwFirst : ∃ s : ConfigVar Nat Bool,
    Run (Guard Ordered (Step fun _ => none)) (init 0 [.other, .mirror 0]) throwFirst s ∧
      (∀ i, s.pc i = .idle) ∧ .mirror 0 ∈ s.m_cbs ∧ s.m_val = 1 := by
  refine ⟨?_, ?_, ?_, ?_, ?_⟩
  rotate_left 1
  · refine .cons ⟨trivial, .setValue rfl 1⟩ ?_
    refine .cons ⟨trivial, .readLock rfl fun j => by cases j <;> rfl⟩ ?_
    refine .cons ⟨fun v j w _ _ hj => (by cases j <;> cases hj), .differs rfl (by decide)⟩ ?_
    refine .cons ⟨trivial, .other rfl rfl⟩ ?_
    refine .cons ⟨trivial, .copy rfl rfl⟩ ?_
    refine .cons ⟨trivial, .unlock rfl rfl⟩ ?_
    refine .cons ⟨trivial, .writeLock rfl fun j => by cases j <;> exact ⟨rfl, rfl⟩⟩ ?_
    refine .cons ⟨trivial, .store rfl⟩ ?_
    refine .cons ⟨trivial, .setValue rfl 2⟩ ?_
    refine .cons ⟨trivial, .readLock rfl fun j => by cases j <;> rfl⟩ ?_
    refine .cons ⟨fun v j w _ _ hj => (by cases j <;> cases hj), .differs rfl (by decide)⟩ ?_
    refine .cons ⟨fun k hk => (by cases hk), .throw rfl rfl⟩ ?_
    exact .nil _
  · intro i
    cases i <;> rfl
  · exact List.mem_cons_of_mem _ (List.mem_singleton_self _)
  · rfl

theorem mirrors_agree_throwFirst : ∃ s : ConfigVar Nat Bool,
    Run (Guard Ordered (Step fun _ => none)) (init 0 [.other, .mirror 0]) throwFirst s ∧
      s.m_val = 1 ∧ s.mirror 0 = 1 := by
  obtain ⟨s, hrun, hidle, hmem, hval⟩ := run_throwFirst
  exact ⟨s, hrun, hval, ((mirrors_agree 0 _ _ hrun).1 hidle 0 hmem).trans hval⟩

/-- The thread that notifies last stores first. -/
def storeFirst : List (Access Nat Bool) :=
  [.setValue true 1, .readLock true, .compare true, .setValue false 2, .readLock false,
    .compare false, .call true, .call false, .unlock true, .unlock false, .writeLock false,
    .store false, .writeLock true, .store true]

theorem run_storeFirst : ∃ s : ConfigVar Nat Bool,
    Run (Step fun _ => none) (init 0 [.mirror 0]) storeFirst s ∧ (∀ i, s.pc i = .idle) ∧
      .mirror 0 ∈ s.m_cbs ∧ s.mirror 0 = 2 ∧ s.m_val = 1 := by
  refine ⟨?_, ?_, ?_, ?_, ?_, ?_⟩
  rotate_left 1
  · refine .cons (.setValue rfl 1) ?_
    refine .cons (.readLock rfl fun j => by cases j <;> rfl) ?_
    refine .cons (.differs rfl (by decide)) ?_
    refine .cons (.setValue rfl 2) ?_
    refine .cons (.readLock rfl fun j => by cases j <;> rfl) ?_
    refine .cons (.differs rfl (by decide)) ?_
    refine .cons (.copy rfl rfl) ?_
    refine .cons (.copy rfl rfl) ?_
    refine .cons (.unlock rfl rfl) ?_
    refine .cons (.unlock rfl rfl) ?_
    refine .cons (.writeLock rfl fun j => by cases j <;> exact ⟨rfl, rfl⟩) ?_
    refine .cons (.store rfl) ?_
    refine .cons (.writeLock rfl fun j => by cases j <;> exact ⟨rfl, rfl⟩) ?_
    refine .cons (.store rfl) ?_
    exact .nil _
  · intro i
    cases i <;> rfl
  · exact List.mem_singleton_self _
  · rfl
  · rfl

theorem not_mirrors_agree : ¬∀ (ls : List (Access Nat Bool)) (s : ConfigVar Nat Bool),
    Run (Step fun _ => none) (init 0 [.mirror 0]) ls s → (∀ i, s.pc i = .idle) →
      ∀ k, .mirror k ∈ s.m_cbs → s.mirror k = s.m_val := by
  intro hall
  obtain ⟨s, hrun, hidle, hmem, hmirror, hval⟩ := run_storeFirst
  have heq := hall _ s hrun hidle 0 hmem
  rw [hmirror, hval] at heq
  cases heq

end ConfigVar

end Captain
