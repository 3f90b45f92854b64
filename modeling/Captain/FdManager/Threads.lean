import Captain.FdManager
import Mathlib.Data.List.Induction
import Mathlib.Logic.Function.Basic

/-!
# `FdManager` under several threads (`captain/fd_manager.cpp`)

`FdManager::get` looks a descriptor up under the read lock and creates its context under the write
lock; between the two other threads may come. A step is one section under the lock.

* `shared_iff`: between two `del(fd)` every `get(fd, true)` returns the same context exactly when
  every creation finds the slot empty.
-/

namespace Captain

open Transition

variable {ι : Type}

structure FdThreads (ι : Type) where
  manager : FdManager
  /-- The descriptor whose context a thread is about to create. -/
  creating : ι → Option Nat

/-- A section of a call by thread `i`, with the pointer it returns. `lookup` with `none` goes on to
create the context. -/
inductive FdEvent (ι : Type)
  | lookup (i : ι) (fd : Nat) (auto_create : Bool) (found : Option (Option Nat))
  | create (i : ι) (fd : Nat) (stat : Option Bool) (ctx : Option Nat)
  | del (i : ι) (fd : Nat)
  deriving DecidableEq, Repr

/-- `get(fd, true)` returns. -/
def FdEvent.returned : FdEvent ι → Option (Nat × Option Nat)
  | .lookup _ fd true (some p) => some (fd, p)
  | .create _ fd _ ctx => some (fd, ctx)
  | _ => none

def FdEvent.dels (fd : Nat) : FdEvent ι → Bool
  | .del _ fd' => fd' = fd
  | _ => false

namespace FdManager

/-- The object of a pointer. -/
def ctx (m : FdManager) (p : Option Nat) : Option FdCtx := p.bind fun k => m.ctxs[k]?

/-- A setter of `FdCtx` through a pointer. -/
def modifyCtx (m : FdManager) (p : Option Nat) (f : FdCtx → FdCtx) : FdManager :=
  match p with
  | some k => { m with ctxs := m.ctxs.modify k f }
  | none => m

theorem ctx_modifyCtx (m : FdManager) (p : Option Nat) (f : FdCtx → FdCtx) :
    (m.modifyCtx p f).ctx p = (m.ctx p).map f := by
  cases p with
  | none => rfl
  | some k => exact List.getElem?_modify_eq f k m.ctxs

end FdManager

namespace FdThreads

open FdManager

def init : FdThreads ι := ⟨.new, fun _ => none⟩

/-- Every `get(fd, true)` that returns before the next `del(fd)` returns the same pointer, and what
is set through one is seen through the other. -/
def Shared (es : List (FdEvent ι)) : Prop :=
  ∀ pre e mid e' post fd p q, es = pre ++ e :: (mid ++ e' :: post) →
    e.returned = some (fd, p) → e'.returned = some (fd, q) → (∀ e ∈ mid, e.dels fd = false) →
      p = q ∧ ∀ (m : FdManager) (f : FdCtx → FdCtx), (m.modifyCtx p f).ctx q = (m.ctx q).map f

/-- No other thread has stored a context since the look-up. -/
def Fresh (s : FdThreads ι) : FdEvent ι → Prop
  | .create _ fd _ _ => s.manager.slot fd = none
  | _ => True

variable [DecidableEq ι]

inductive Step : FdThreads ι → FdEvent ι → FdThreads ι → Prop
  | found {s : FdThreads ι} {i : ι} (hi : s.creating i = none) {fd : Nat} {auto_create : Bool}
      {p : Option Nat} (h : s.manager.lookup fd auto_create = .ok (some p)) :
      Step s (.lookup i fd auto_create (some p)) s
  | missed {s : FdThreads ι} {i : ι} (hi : s.creating i = none) {fd : Nat} {auto_create : Bool}
      (h : s.manager.lookup fd auto_create = .ok none) :
      Step s (.lookup i fd auto_create none)
        { s with creating := Function.update s.creating i (some fd) }
  | create {s : FdThreads ι} {i : ι} {fd : Nat} (hi : s.creating i = some fd)
      (stat : Option Bool) {m : FdManager} {p : Option Nat}
      (h : s.manager.create fd stat = .ok (m, p)) :
      Step s (.create i fd stat p) ⟨m, Function.update s.creating i none⟩
  | del {s : FdThreads ι} {i : ι} (hi : s.creating i = none) {fd : Nat} {m : FdManager}
      (h : s.manager.del fd = .ok m) : Step s (.del i fd) { s with manager := m }

variable {s t : FdThreads ι} {e : FdEvent ι} {es : List (FdEvent ι)} {fd : Nat} {p : Option Nat}

/-! ## What a step does to a slot -/

theorem lookup_found {m : FdManager} {auto_create : Bool}
    (h : m.lookup fd auto_create = .ok (some p)) :
    p = m.slot fd ∧ (auto_create = true → p ≠ none) := by
  unfold FdManager.lookup at h
  split at h
  · rename_i hlen
    split at h
    · cases h
      rename_i hauto
      exact ⟨(slot_of_length_le hlen).symm, fun htrue => by rw [hauto] at htrue; cases htrue⟩
    · cases h
  · split at h
    · cases h
    · rename_i q hq
      split at h
      · cases h
        rename_i hcase
        refine ⟨by rw [slot, hq]; rfl, fun htrue => ?_⟩
        rw [htrue] at hcase
        exact Option.isSome_iff_ne_none.mp (hcase.resolve_right Bool.noConfusion)
      · cases h

theorem create_eq {m m' : FdManager} {stat : Option Bool}
    (h : m.create fd stat = .ok (m', p)) : fd < m.m_datas.length ∧ p = some m.ctxs.length ∧
      m' = ⟨m.m_datas.set fd p, m.ctxs ++ [FdCtx.new fd stat]⟩ := by
  unfold FdManager.create at h
  dsimp only at h
  split at h
  · cases h
    exact ⟨‹_›, rfl, rfl⟩
  · cases h

/-- What `get(fd, true)` returns is in the slot, and is not null. -/
theorem Step.returned (hstep : Step s e t) (he : e.returned = some (fd, p)) :
    t.manager.slot fd = p ∧ p ≠ none := by
  cases hstep with
  | @found i _ fd' auto_create p' h =>
    cases auto_create with
    | false => cases he
    | true =>
      cases he
      obtain ⟨hslot, hne⟩ := lookup_found h
      exact ⟨hslot.symm, hne rfl⟩
  | @missed i _ fd' auto_create h => cases auto_create <;> cases he
  | create hi stat h =>
    cases he
    obtain ⟨hlt, hp, rfl⟩ := create_eq h
    exact ⟨slot_set hlt, by rw [hp]; exact Option.some_ne_none _⟩
  | del => cases he

/-- A context stays in its slot over a step that neither deletes it nor stores over it. -/
theorem Step.keeps (hstep : Step s e t) (hfresh : s.Fresh e) (hdel : e.dels fd = false) {r : Nat}
    (hslot : s.manager.slot fd = some r) : t.manager.slot fd = some r := by
  cases hstep with
  | found => exact hslot
  | missed => exact hslot
  | @create i fd' hi stat m p h =>
    obtain ⟨-, -, rfl⟩ := create_eq h
    have hne : fd ≠ fd' := by
      rintro rfl
      rw [Fresh, hslot] at hfresh
      cases hfresh
    exact (slot_set_ne hne).trans hslot
  | @del i hi fd' m h =>
    have hne : fd ≠ fd' := by
      rintro rfl
      exact absurd hdel (by simp [FdEvent.dels])
    rcases del_cases h with ⟨rfl, -⟩ | ⟨-, rfl⟩
    · exact hslot
    · exact (slot_set_ne hne).trans hslot

theorem run_keeps (hrun : Run (Guard Fresh Step) s es t) (hdel : ∀ e ∈ es, e.dels fd = false)
    {r : Nat} (hslot : s.manager.slot fd = some r) : t.manager.slot fd = some r := by
  induction hrun with
  | nil => exact hslot
  | cons hst _ ih =>
    exact ih (fun e he => hdel e (List.mem_cons_of_mem _ he))
      (hst.2.keeps hst.1 (hdel _ List.mem_cons_self) hslot)

/-- A slot that a step fills is returned by it. -/
theorem Step.fills (hstep : Step s e t) {r : Nat} (hslot : t.manager.slot fd = some r) :
    s.manager.slot fd = some r ∧ e.dels fd = false ∨ e.returned = some (fd, some r) := by
  cases hstep with
  | found => exact .inl ⟨hslot, rfl⟩
  | missed => exact .inl ⟨hslot, rfl⟩
  | @create i fd' hi stat m p h =>
    obtain ⟨hlt, -, rfl⟩ := create_eq h
    by_cases hfd : fd = fd'
    · subst hfd
      have hp : p = some r := (slot_set hlt).symm.trans hslot
      exact .inr (by rw [FdEvent.returned, hp])
    · exact .inl ⟨(slot_set_ne hfd).symm.trans hslot, rfl⟩
  | @del i hi fd' m h =>
    by_cases hfd : fd = fd'
    · subst hfd
      have hnone : m.slot fd = none := by
        rcases del_cases h with ⟨rfl, hlen⟩ | ⟨hlt, rfl⟩
        · exact slot_of_length_le hlen
        · exact slot_set hlt
      cases hslot.symm.trans hnone
    · refine .inl ⟨?_, by simp [FdEvent.dels, Ne.symm hfd]⟩
      rcases del_cases h with ⟨rfl, -⟩ | ⟨-, rfl⟩
      · exact hslot
      · exact (slot_set_ne hfd).symm.trans hslot

/-! ## Runs -/

/-- What is in a slot was returned, and not deleted since. -/
theorem exists_returned (hrun : Run Step init es s) {r : Nat} (hslot : s.manager.slot fd = some r) :
    ∃ pre e mid, es = pre ++ e :: mid ∧ e.returned = some (fd, some r) ∧
      ∀ e ∈ mid, e.dels fd = false := by
  induction es using List.reverseRecOn generalizing s with
  | nil =>
    rw [Run.nil_iff.mp hrun] at hslot
    cases (slot_new fd).symm.trans hslot
  | append_singleton es e ih =>
    obtain ⟨u, hbefore, hlast⟩ := Run.append_iff.mp hrun
    obtain ⟨v, hstep, hnil⟩ := Run.cons_iff.mp hlast
    rw [Run.nil_iff.mp hnil] at hslot
    rcases hstep.fills hslot with ⟨hkept, hdel⟩ | hreturned
    · obtain ⟨pre, e₀, mid, rfl, hreturned, hmid⟩ := ih hbefore hkept
      refine ⟨pre, e₀, mid ++ [e], by rw [List.append_assoc]; rfl, hreturned, fun e' he' => ?_⟩
      rcases List.mem_append.mp he' with hmem | hmem
      · exact hmid e' hmem
      · rw [List.mem_singleton.mp hmem]
        exact hdel
    · exact ⟨es, e, [], rfl, hreturned, fun _ he' => by cases he'⟩

/-- The pointers are those of contexts that were made. -/
def Made (s : FdThreads ι) : Prop := ∀ fd r, s.manager.slot fd = some r → r < s.manager.ctxs.length

theorem Step.made (hstep : Step s e t) (h : s.Made) : t.Made := by
  cases hstep with
  | found => exact h
  | missed => exact h
  | @create i fd' hi stat m p hcreate =>
    obtain ⟨hlt, hp, rfl⟩ := create_eq hcreate
    intro fd r hslot
    show r < (s.manager.ctxs ++ [FdCtx.new fd' stat]).length
    rw [List.length_append, List.length_singleton]
    by_cases hfd : fd = fd'
    · subst hfd
      have hr : some r = some s.manager.ctxs.length :=
        hslot.symm.trans ((slot_set hlt).trans hp)
      cases hr
      exact Nat.lt_succ_self _
    · exact Nat.lt_succ_of_lt (h fd r ((slot_set_ne hfd).symm.trans hslot))
  | @del i hi fd' m hdel =>
    intro fd r hslot
    rcases del_cases hdel with ⟨rfl, -⟩ | ⟨hlt, rfl⟩
    · exact h fd r hslot
    · by_cases hfd : fd = fd'
      · subst hfd
        cases (slot_set hlt).symm.trans hslot
      · exact h fd r ((slot_set_ne hfd).symm.trans hslot)

omit [DecidableEq ι] in
theorem made_init : (init : FdThreads ι).Made := by
  intro fd r hslot
  cases (slot_new fd).symm.trans hslot

/-- **Threads.** In a run, the calls of `get(fd, true)` between two `del(fd)` share their context
exactly when each creation finds the slot empty. -/
theorem shared_iff (hrun : Run Step init es s) :
    Shared es ↔ Run (Guard Fresh Step) init es s := by
  constructor
  · intro hshared
    have hfresh := hrun.of_steps (P := fun u e _ => u.Fresh e) ?_
    · exact hfresh.mono fun _ _ _ hst => hst.symm
    intro pre e post u v hes hpre hstep hpost
    cases hstep with
    | found => trivial
    | missed => trivial
    | del => trivial
    | @create i fd hi stat m p hcreate =>
      show u.manager.slot fd = none
      by_contra hne
      obtain ⟨r, hr⟩ := Option.ne_none_iff_exists'.mp hne
      obtain ⟨pre', e₀, mid, rfl, hreturned, hmid⟩ := exists_returned hpre hr
      obtain ⟨hsame, -⟩ := hshared pre' e₀ mid _ post fd (some r) p
        (by rw [hes, List.append_assoc]; rfl) hreturned rfl hmid
      have hlt := hpre.invariant (fun _ _ _ hs hst => hst.made hs) made_init fd r hr
      rw [(create_eq hcreate).2.1] at hsame
      rw [Option.some.inj hsame] at hlt
      exact Nat.lt_irrefl _ hlt
  · rintro hguard pre e mid e' post fd p q rfl he he' hmid
    obtain ⟨u, -, hrest⟩ := Run.append_iff.mp hguard
    obtain ⟨v, hstep, hrest⟩ := Run.cons_iff.mp hrest
    obtain ⟨w, hmidrun, hrest⟩ := Run.append_iff.mp hrest
    obtain ⟨x, hstep', -⟩ := Run.cons_iff.mp hrest
    obtain ⟨hp, hne⟩ := hstep.2.returned he
    obtain ⟨r, rfl⟩ := Option.ne_none_iff_exists'.mp hne
    have hdel : e'.dels fd = false := by
      cases e' with
      | del => cases he'
      | _ => rfl
    have hx := hstep'.2.keeps hstep'.1 hdel (run_keeps hmidrun hmid hp)
    have hpq : some r = q := hx.symm.trans (hstep'.2.returned he').1
    rw [← hpq]
    exact ⟨rfl, fun m f => ctx_modifyCtx m (some r) f⟩

/-- One thread creates the context, and the other finds it. -/
def oneCreator : List (FdEvent Bool) :=
  [.lookup true 3 true none, .create true 3 none (some 0), .lookup false 3 true (some (some 0))]

theorem run_oneCreator : ∃ s : FdThreads Bool, Run (Guard Fresh Step) init oneCreator s :=
  ⟨_, .cons ⟨trivial, .missed rfl rfl⟩ (.cons ⟨rfl, .create rfl none rfl⟩
    (.cons ⟨trivial, .found rfl rfl⟩ (.nil _)))⟩

theorem shared_iff_oneCreator : ∃ s : FdThreads Bool,
    Run Step init oneCreator s ∧ Shared oneCreator := by
  obtain ⟨s, hrun⟩ := run_oneCreator
  exact ⟨s, hrun.mono fun _ _ _ hstep => hstep.2, (shared_iff (hrun.mono fun _ _ _ hstep =>
    hstep.2)).mpr hrun⟩

/-- Both threads find nothing, and both store a context. -/
theorem not_shared : ¬∀ (es : List (FdEvent Bool)) s, Run Step init es s → Shared es := by
  intro h
  have hrun : Run Step (init : FdThreads Bool) [.lookup true 3 true none,
      .lookup false 3 true none, .create true 3 none (some 0), .create false 3 none (some 1)] _ :=
    .cons (.missed rfl rfl) (.cons (.missed rfl rfl)
      (.cons (.create rfl none rfl) (.cons (.create rfl none rfl) (.nil _))))
  have hsame := (h _ _ hrun [.lookup true 3 true none, .lookup false 3 true none] _ [] _ [] 3
    (some 0) (some 1) rfl rfl rfl fun _ he => by cases he).1
  cases hsame

end FdThreads

end Captain
