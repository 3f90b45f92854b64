import Captain.IOManager.Registry
import Captain.Transition

/-!
# The descriptor events between threads

Threads call the operations of one `IOManager`. A label is one section: `addEvent` tests the size
of the table under the read lock, makes the table longer under the write lock if it has to, and
works on the context under its mutex; the other operations look the context up and then lock it;
`idle` waits for `epoll` and then locks the reported contexts, one after the other. Other threads
may come in between any two sections. A thread whose dispatch fails an assertion is `aborted`.

`run_inv`: after every run the contexts store registrations, and the counter is their number.
-/

namespace Captain.IOManager

open Transition

variable {σ φ ψ ι : Type}

/-- What a thread is to do under the mutex of a context. -/
inductive Op (σ φ ψ : Type)
  | addEvent (fd : Nat) (event : Event) (cb : Option φ) (env : Env σ ψ)
  | delEvent (fd : Nat) (event : Event)
  | cancelEvent (fd : Nat) (event : Event)
  | cancelAll (fd : Nat)

namespace Op

def fd : Op σ φ ψ → Nat
  | .addEvent fd _ _ _ => fd
  | .delEvent fd _ => fd
  | .cancelEvent fd _ => fd
  | .cancelAll fd => fd

/-- `addEvent` is called on a worker thread. -/
def Proper : Op σ φ ψ → Prop
  | .addEvent _ _ _ env => env.scheduler.isSome ∧ env.exec = true
  | _ => True

/-- Only `addEvent` makes the table longer. -/
def grows : Op σ φ ψ → Bool
  | .addEvent .. => true
  | _ => false

/-- The section under the mutex of the context at `a`. -/
def run (m : IOManager σ φ ψ) (a : Nat) (rt : Bool) : Op σ φ ψ → Except IOFault (IOManager σ φ ψ)
  | .addEvent fd event cb env => (m.addLocked a fd event cb env rt).map Prod.fst
  | .delEvent fd event => .ok (m.delLocked a fd event rt).1
  | .cancelEvent fd event => (m.cancelLocked a fd event rt).map Prod.fst
  | .cancelAll fd => (m.cancelAllLocked a fd rt).map Prod.fst

/-- What the section of an operation registers at most. -/
def registers : Op σ φ ψ → Multiset (σ × Task φ ψ)
  | .addEvent _ _ cb env =>
    ((env.scheduler.map fun s => (s, newTask cb env.fiber)).toList : List (σ × Task φ ψ))
  | _ => 0

end Op

/-- Where a thread stands. -/
inductive Pc (σ φ ψ : Type)
  | idle
  | growing (op : Op σ φ ψ)
  | holding (a : Nat) (op : Op σ φ ψ)
  | reporting (report : List (Nat × UInt32))
  | aborted

/-- The operation that a thread is making. -/
def Pc.op : Pc σ φ ψ → Option (Op σ φ ψ)
  | .growing op | .holding _ op => some op
  | _ => none

inductive Label (σ φ ψ ι : Type)
  | find (i : ι) (op : Op σ φ ψ)
  | grow (i : ι)
  | lock (i : ι) (rt : Bool)
  | wait (i : ι) (report : List (Nat × UInt32))
  | dispatch (i : ι) (rt : Bool)

structure Threads (σ φ ψ ι : Type) where
  mgr : IOManager σ φ ψ
  pc : ι → Pc σ φ ψ

/-- What `epoll_wait` may report: of the events asked for on the descriptor of a context some, and
errors and hang-ups unasked. -/
def Reported (m : IOManager σ φ ψ) (report : List (Nat × UInt32)) : Prop :=
  ∀ r ∈ report, r.1 < m.next ∧ ∃ w, m.interest (m.heap r.1).fd = some w ∧
    r.2 &&& ~~~(w ||| EPOLLERR ||| EPOLLHUP) = 0

instance : (op : Op σ φ ψ) → Decidable op.Proper
  | .addEvent _ _ _ env => inferInstanceAs (Decidable (env.scheduler.isSome ∧ env.exec = true))
  | .delEvent .. | .cancelEvent .. | .cancelAll _ => .isTrue trivial

instance (m : IOManager σ φ ψ) (report : List (Nat × UInt32)) : Decidable (Reported m report) :=
  inferInstanceAs (Decidable (∀ r ∈ report, r.1 < m.next ∧
    ∃ w ∈ m.interest (m.heap r.1).fd, r.2 &&& ~~~(w ||| EPOLLERR ||| EPOLLHUP) = 0))

namespace Threads

variable [DecidableEq ι]

def init : Threads σ φ ψ ι := ⟨new, fun _ => .idle⟩

def goto (s : Threads σ φ ψ ι) (mgr : IOManager σ φ ψ) (i : ι) (p : Pc σ φ ψ) :
    Threads σ φ ψ ι := ⟨mgr, Function.update s.pc i p⟩

/-- After the section under the read lock. -/
def found (op : Op σ φ ψ) : Option Nat → Pc σ φ ψ
  | some a => .holding a op
  | none => if op.grows then .growing op else .idle

/-- One section of one thread. An `addEvent` of an event that is registered when its context is
locked fails its assertion: it makes no step. -/
inductive Step : Threads σ φ ψ ι → Label σ φ ψ ι → Threads σ φ ψ ι → Prop
  | find {s : Threads σ φ ψ ι} {i : ι} (hpc : s.pc i = .idle) {op : Op σ φ ψ}
      (hop : op.Proper) : Step s (.find i op) (s.goto s.mgr i (found op (s.mgr.lookup op.fd)))
  | grow {s : Threads σ φ ψ ι} {i : ι} {op : Op σ φ ψ} (hpc : s.pc i = .growing op)
      {m : IOManager σ φ ψ} {a : Nat} (hrun : s.mgr.growAndGet op.fd = .ok (m, a)) :
      Step s (.grow i) (s.goto m i (.holding a op))
  | lock {s : Threads σ φ ψ ι} {i : ι} {a : Nat} {op : Op σ φ ψ} (hpc : s.pc i = .holding a op)
      {rt : Bool} {m : IOManager σ φ ψ} (hrun : op.run s.mgr a rt = .ok m) :
      Step s (.lock i rt) (s.goto m i .idle)
  | wait {s : Threads σ φ ψ ι} {i : ι} (hpc : s.pc i = .idle) {report : List (Nat × UInt32)}
      (hreport : s.mgr.Reported report) :
      Step s (.wait i report) (s.goto s.mgr i (.reporting report))
  | dispatch {s : Threads σ φ ψ ι} {i : ι} {a : Nat} {events : UInt32}
      {rest : List (Nat × UInt32)} (hpc : s.pc i = .reporting ((a, events) :: rest)) {rt : Bool}
      {m : IOManager σ φ ψ} (hrun : s.mgr.dispatch a events rt = .ok m) :
      Step s (.dispatch i rt) (s.goto m i (if rest = [] then .idle else .reporting rest))
  | abort {s : Threads σ φ ψ ι} {i : ι} {a : Nat} {events : UInt32}
      {rest : List (Nat × UInt32)} (hpc : s.pc i = .reporting ((a, events) :: rest)) {rt : Bool}
      {e : IOFault} (hrun : s.mgr.dispatch a events rt = .error e) :
      Step s (.dispatch i rt) (s.goto s.mgr i .aborted)

/-- The steps, computed. -/
def next (s : Threads σ φ ψ ι) : Label σ φ ψ ι → Option (Threads σ φ ψ ι)
  | .find i op =>
    match s.pc i with
    | .idle => if op.Proper then some (s.goto s.mgr i (found op (s.mgr.lookup op.fd))) else none
    | _ => none
  | .grow i =>
    match s.pc i with
    | .growing op =>
      match s.mgr.growAndGet op.fd with
      | .ok (m, a) => some (s.goto m i (.holding a op))
      | .error _ => none
    | _ => none
  | .lock i rt =>
    match s.pc i with
    | .holding a op =>
      match op.run s.mgr a rt with
      | .ok m => some (s.goto m i .idle)
      | .error _ => none
    | _ => none
  | .wait i report =>
    match s.pc i with
    | .idle => if s.mgr.Reported report then some (s.goto s.mgr i (.reporting report)) else none
    | _ => none
  | .dispatch i rt =>
    match s.pc i with
    | .reporting ((a, events) :: rest) =>
      match s.mgr.dispatch a events rt with
      | .ok m => some (s.goto m i (if rest = [] then .idle else .reporting rest))
      | .error _ => some (s.goto s.mgr i .aborted)
    | _ => none

theorem next_sound (s : Threads σ φ ψ ι) (l : Label σ φ ψ ι) (s' : Threads σ φ ψ ι)
    (h : next s l = some s') : Step s l s' := by
  cases l with
  | find i op =>
    simp only [next] at h
    split at h
    · split at h <;> cases h
      exact .find ‹_› ‹_›
    · cases h
  | grow i =>
    simp only [next] at h
    split at h
    · split at h <;> cases h
      exact .grow ‹_› ‹_›
    · cases h
  | lock i rt =>
    simp only [next] at h
    split at h
    · split at h <;> cases h
      exact .lock ‹_› ‹_›
    · cases h
  | wait i report =>
    simp only [next] at h
    split at h
    · split at h <;> cases h
      exact .wait ‹_› ‹_›
    · cases h
  | dispatch i rt =>
    simp only [next] at h
    split at h
    · split at h <;> cases h
      · exact .dispatch ‹_› ‹_›
      · exact .abort ‹_› ‹_›
    · cases h

/-! ## What every section keeps -/

/-- The addresses that a thread holds are contexts, and a thread grows the table only for a
descriptor beyond the first 32. -/
def PcOk (next : Nat) : Pc σ φ ψ → Prop
  | .growing op => op.Proper ∧ 32 ≤ op.fd
  | .holding a op => op.Proper ∧ a < next
  | .reporting report => ∀ r ∈ report, r.1 < next
  | _ => True

theorem PcOk.mono {n n' : Nat} (hn : n ≤ n') {p : Pc σ φ ψ} (h : PcOk n p) : PcOk n' p := by
  cases p with
  | holding a op => exact ⟨h.1, Nat.lt_of_lt_of_le h.2 hn⟩
  | reporting report => exact fun r hr => Nat.lt_of_lt_of_le (h r hr) hn
  | _ => exact h

structure Inv (s : Threads σ φ ψ ι) (S : Nat → Slots σ φ ψ) : Prop where
  registry : Registry s.mgr S
  size : 32 ≤ s.mgr.m_fdContexts.length
  pc : ∀ i, PcOk s.mgr.next (s.pc i)

/-- What a step registers at most. -/
def registers (s : Threads σ φ ψ ι) : Label σ φ ψ ι → Multiset (σ × Task φ ψ)
  | .lock i true => ((s.pc i).op.map Op.registers).getD 0
  | _ => 0

/-- The registrations that the schedulers have got and those that are stored. -/
def known (s : Threads σ φ ψ ι) (S : Nat → Slots σ φ ψ) : Multiset (σ × Task φ ψ) :=
  (s.mgr.scheduled : Multiset (σ × Task φ ψ)) + pending s.mgr.next S

/-- What a section under the mutex of a context does: the registrations on that context change,
and `out` goes to the schedulers. -/
structure Section (m : IOManager σ φ ψ) (S : Nat → Slots σ φ ψ) (m' : IOManager σ φ ψ)
    (S' : Nat → Slots σ φ ψ) : Prop where
  registry : Registry m' S'
  next : m'.next = m.next
  table : m'.m_fdContexts = m.m_fdContexts

/-- A section that gives `out` to the schedulers and registers at most `more`: nothing that was
registered or given away before comes back. -/
structure Sends (m : IOManager σ φ ψ) (S : Nat → Slots σ φ ψ) (m' : IOManager σ φ ψ)
    (S' : Nat → Slots σ φ ψ) (more : Multiset (σ × Task φ ψ)) : Prop extends
    Section m S m' S' where
  scheduled : m.scheduled <+: m'.scheduled
  law : (m'.scheduled : Multiset (σ × Task φ ψ)) + pending m'.next S' ≤
    (m.scheduled : Multiset (σ × Task φ ψ)) + pending m.next S + more

theorem Sends.refl {m : IOManager σ φ ψ} {S : Nat → Slots σ φ ψ} (h : Registry m S)
    (more : Multiset (σ × Task φ ψ)) : Sends m S m S more where
  registry := h
  next := rfl
  table := rfl
  scheduled := List.prefix_rfl
  law := Multiset.le_add_right _ _

theorem Sends.store {m : IOManager σ φ ψ} {S : Nat → Slots σ φ ψ} (h : Registry m S) {a : Nat}
    (ha : a < m.next) (fd : Nat) {r : Slots σ φ ψ} (less more : Multiset (σ × Task φ ψ))
    (hr : r.tasks + less = (S a).tasks + more) {count : Int}
    (hcount : count = (more.card : Int) - (less.card : Int)) {out : List (σ × Task φ ψ)}
    (hout : (out : Multiset (σ × Task φ ψ)) ≤ less) :
    Sends m S (m.store a fd r count out) (Function.update S a r) more where
  registry := h.store ha fd hr hcount out
  next := rfl
  table := rfl
  scheduled := List.prefix_append _ _
  law := by
    have hpending := pending_update ha hr
    change ((m.scheduled ++ out : List (σ × Task φ ψ)) : Multiset (σ × Task φ ψ)) +
      pending m.next (Function.update S a r) ≤ _
    rw [← Multiset.coe_add, add_assoc, add_assoc, ← hpending, add_comm (pending _ _) less]
    exact add_le_add_right (add_le_add_left hout _) _

/-- The section of an operation under the mutex of a context. -/
theorem Sends.of_run {m m' : IOManager σ φ ψ} {S : Nat → Slots σ φ ψ} (h : Registry m S) {a : Nat}
    (ha : a < m.next) {op : Op σ φ ψ} (hop : op.Proper) {rt : Bool}
    (hrun : op.run m a rt = .ok m') :
    ∃ S', Sends m S m' S' (if rt then op.registers else 0) := by
  cases op with
  | addEvent fd e cb env =>
    obtain ⟨hs, hexec⟩ := hop
    obtain ⟨sch, hsch⟩ := Option.isSome_iff_exists.mp hs
    cases he : S a e with
    | some t =>
      rw [Op.run, addLocked_registered h.ok (by rw [he]; rfl)] at hrun
      cases hrun
    | none =>
      cases rt with
      | false =>
        rw [Op.run, addLocked_fail h.ok he] at hrun
        cases hrun
        exact ⟨S, .refl h _⟩
      | true =>
        rw [Op.run, addLocked_ok h.ok he fd cb hsch hexec] at hrun
        cases hrun
        rw [if_pos rfl, Op.registers, hsch]
        refine ⟨_, .store h ha fd 0 {(sch, newTask cb env.fiber)} ?_ rfl (Multiset.zero_le _)⟩
        rw [Slots.tasks_insert he, add_zero]
  | delEvent fd e =>
    rcases found_or (S a e) rt with hdo | ⟨t, ht, rfl⟩
    · rw [Op.run, delLocked_same h.ok fd hdo] at hrun
      cases hrun
      exact ⟨S, .refl h _⟩
    · rw [Op.run, delLocked_ok h.ok ht] at hrun
      cases hrun
      exact ⟨_, .store h ha fd {t} 0 ((Slots.tasks_erase ht).trans (add_zero _).symm) rfl
        (Multiset.zero_le _)⟩
  | cancelEvent fd e =>
    rcases found_or (S a e) rt with hdo | ⟨t, ht, rfl⟩
    · rw [Op.run, cancelLocked_same h.ok fd hdo] at hrun
      cases hrun
      exact ⟨S, .refl h _⟩
    · rw [Op.run, cancelLocked_ok h.ok ht] at hrun
      cases hrun
      exact ⟨_, .store h ha fd {t} 0 ((Slots.tasks_erase ht).trans (add_zero _).symm) rfl le_rfl⟩
  | cancelAll fd =>
    rcases (S a).found_any_or (fun _ => true) rt with hdo | ⟨⟨e, -, he⟩, rfl⟩
    · rw [Op.run, cancelAllLocked_same h.ok fd (hdo.imp_left fun hall e => hall e rfl)] at hrun
      cases hrun
      exact ⟨S, .refl h _⟩
    · rw [Op.run, cancelAllLocked_ok h.ok ⟨e, he⟩] at hrun
      cases hrun
      refine ⟨_, .store h ha fd ((S a).taken fun e => (S a e).isSome) 0 ?_ ?_ le_rfl⟩
      · rw [Slots.tasks_taken_all, Slots.tasks_none, zero_add, add_zero]
      · simp

theorem Sends.of_dispatch {m m' : IOManager σ φ ψ} {S : Nat → Slots σ φ ψ} (h : Registry m S)
    {a : Nat} (ha : a < m.next) {events : UInt32} {rt : Bool}
    (hrun : m.dispatch a events rt = .ok m') : ∃ S', Sends m S m' S' 0 := by
  obtain ⟨p, hp⟩ := realEvents_eq events
  rcases (S a).found_any_or p rt with hdo | ⟨hsome, rfl⟩
  · rw [dispatch_same h.ok hp hdo] at hrun
    cases hrun
    exact ⟨S, .refl h 0⟩
  · by_cases hall : ∀ e, p e = true → (S a e).isSome
    · rw [dispatch_ok h.ok hp hsome hall] at hrun
      cases hrun
      refine ⟨_, .store h ha _ ((S a).taken p) 0 ?_ ?_ le_rfl⟩
      · rw [Slots.tasks_without, add_zero]
      · simp
    · obtain ⟨e, he⟩ := not_forall.mp hall
      rw [Classical.not_imp, Bool.not_eq_true, Option.isSome_eq_false_iff,
        Option.isNone_iff_eq_none] at he
      rw [dispatch_fault h.ok hp hsome ⟨e, he⟩] at hrun
      cases hrun

theorem length_contextResize (m : IOManager σ φ ψ) (size : Nat) :
    (m.contextResize size).m_fdContexts.length = size := by
  simp only [contextResize]
  split
  · dsimp only
    rw [List.length_take]
    omega
  · simp only [List.length_append, List.length_map, List.length_range]
    omega

theorem next_le_contextResize (m : IOManager σ φ ψ) (size : Nat) :
    m.next ≤ (m.contextResize size).next := by
  simp only [contextResize]
  split
  · exact le_rfl
  · exact Nat.le_add_right _ _

theorem scheduled_contextResize (m : IOManager σ φ ψ) (size : Nat) :
    (m.contextResize size).scheduled = m.scheduled := by
  simp only [contextResize]
  split <;> rfl

/-- A resize drops contexts exactly when the table was longer. -/
theorem prefix_contextResize_iff (m : IOManager σ φ ψ) (size : Nat) :
    m.m_fdContexts <+: (m.contextResize size).m_fdContexts ↔ m.m_fdContexts.length ≤ size := by
  constructor
  · intro h
    have hle := h.length_le
    rwa [length_contextResize] at hle
  · intro h
    simp only [contextResize]
    split
    · rw [List.take_of_length_le h]
    · exact List.prefix_append _ _

theorem growAndGet_ok {m : IOManager σ φ ψ} {fd : Nat} (hfd : 32 ≤ fd) :
    ∃ m' a, m.growAndGet fd = .ok (m', a) := by
  have hlt : fd < (m.contextResize (fd * 3 / 2)).m_fdContexts.length := by
    rw [length_contextResize]
    omega
  refine ⟨m.contextResize (fd * 3 / 2), (m.contextResize (fd * 3 / 2)).m_fdContexts[fd], ?_⟩
  simp only [growAndGet, List.getElem?_eq_getElem hlt]

theorem growAndGet_eq {m m' : IOManager σ φ ψ} {fd a : Nat}
    (hrun : m.growAndGet fd = .ok (m', a)) :
    m' = m.contextResize (fd * 3 / 2) ∧ a ∈ m'.m_fdContexts := by
  unfold growAndGet at hrun
  dsimp only at hrun
  split at hrun
  · rename_i b hb
    cases hrun
    exact ⟨rfl, List.mem_of_getElem? hb⟩
  · cases hrun

section

variable {s : Threads σ φ ψ ι} {S : Nat → Slots σ φ ψ}

theorem pcOk_goto {s : Threads σ φ ψ ι} {n : Nat} (hpc : ∀ i, PcOk n (s.pc i)) {m : IOManager σ φ ψ}
    (hn : n ≤ m.next) {i : ι} {p : Pc σ φ ψ} (hp : PcOk m.next p) (j : ι) :
    PcOk (s.goto m i p).mgr.next ((s.goto m i p).pc j) := by
  show PcOk m.next (Function.update s.pc i p j)
  by_cases hj : j = i
  · rw [hj, Function.update_self]
    exact hp
  · rw [Function.update_of_ne hj]
    exact (hpc j).mono hn

theorem Inv.goto (h : Inv s S) {i : ι} {p : Pc σ φ ψ} (hp : PcOk s.mgr.next p) :
    Inv (s.goto s.mgr i p) S :=
  ⟨h.registry, h.size, pcOk_goto h.pc le_rfl hp⟩

theorem Inv.of_section (h : Inv s S) {m' : IOManager σ φ ψ} {S' : Nat → Slots σ φ ψ}
    (hsec : Section s.mgr S m' S') {i : ι} {p : Pc σ φ ψ} (hp : PcOk s.mgr.next p) :
    Inv (s.goto m' i p) S' := by
  refine ⟨hsec.registry, ?_, pcOk_goto h.pc (le_of_eq hsec.next.symm) (hsec.next.symm ▸ hp)⟩
  show 32 ≤ m'.m_fdContexts.length
  rw [hsec.table]
  exact h.size

omit [DecidableEq ι] in
theorem Inv.lookup (h : Inv s S) (fd : Nat) :
    (∃ a < s.mgr.next, s.mgr.lookup fd = some a) ∨ 32 ≤ fd ∧ s.mgr.lookup fd = none := by
  have hsize := h.size
  unfold IOManager.lookup
  split
  · rename_i hlt
    rw [List.getElem?_eq_getElem hlt]
    exact .inl ⟨_, h.registry.table _ (List.getElem_mem hlt), rfl⟩
  · exact .inr ⟨by omega, rfl⟩

/-- **Step lemma.** -/
theorem Step.sends {s' : Threads σ φ ψ ι} {l : Label σ φ ψ ι} (hstep : Step s l s') (h : Inv s S) :
    ∃ S', Inv s' S' ∧ s.mgr.scheduled <+: s'.mgr.scheduled ∧
      s'.known S' ≤ s.known S + s.registers l := by
  have hsame : s.known S ≤ s.known S + s.registers l := Multiset.le_add_right _ _
  cases hstep with
  | @find i hpc op hop =>
    refine ⟨S, h.goto ?_, List.prefix_rfl, hsame⟩
    rcases h.lookup op.fd with ⟨a, ha, heq⟩ | ⟨hfd, heq⟩ <;> rw [heq]
    · exact ⟨hop, ha⟩
    · show PcOk _ (if op.grows then .growing op else .idle)
      split
      · exact ⟨hop, hfd⟩
      · trivial
  | @grow i op hpc m a hrun =>
    have hp := h.pc i
    rw [hpc] at hp
    obtain ⟨hm, ha⟩ := growAndGet_eq hrun
    have hreg : Registry m S := by
      rw [hm]
      exact h.registry.contextResize _
    have hnext : s.mgr.next ≤ m.next := by
      rw [hm]
      exact next_le_contextResize _ _
    have hscheduled : m.scheduled = s.mgr.scheduled := by
      rw [hm, scheduled_contextResize]
    refine ⟨S, ⟨hreg, ?_, pcOk_goto h.pc hnext ⟨hp.1, hreg.table a ha⟩⟩, ?_, ?_⟩
    · show 32 ≤ m.m_fdContexts.length
      rw [hm, length_contextResize]
      have := hp.2
      omega
    · exact hscheduled ▸ List.prefix_rfl
    · refine le_trans (le_of_eq ?_) hsame
      show (m.scheduled : Multiset (σ × Task φ ψ)) + pending m.next S = s.known S
      rw [hscheduled, pending_le hnext h.registry.fresh, known]
  | @lock i a op hpc rt m hrun =>
    have hp := h.pc i
    rw [hpc] at hp
    obtain ⟨S', hsends⟩ := Sends.of_run h.registry hp.2 hp.1 hrun
    refine ⟨S', h.of_section hsends.toSection trivial, hsends.scheduled, ?_⟩
    have hreg : s.registers (.lock i rt) = if rt then op.registers else 0 := by
      cases rt with
      | false => rfl
      | true =>
        rw [registers, hpc]
        rfl
    rw [hreg]
    exact hsends.law
  | wait hpc hreport =>
    exact ⟨S, h.goto fun r hr => (hreport r hr).1, List.prefix_rfl, hsame⟩
  | @dispatch i a events rest hpc rt m hrun =>
    have hp := h.pc i
    rw [hpc] at hp
    obtain ⟨S', hsends⟩ := Sends.of_dispatch h.registry (hp _ List.mem_cons_self) hrun
    refine ⟨S', h.of_section hsends.toSection ?_, hsends.scheduled, hsends.law⟩
    split
    · trivial
    · exact fun r hr => hp r (List.mem_cons_of_mem _ hr)
  | abort hpc hrun => exact ⟨S, h.goto trivial, List.prefix_rfl, hsame⟩

theorem Step.inv {s' : Threads σ φ ψ ι} {l : Label σ φ ψ ι} (hstep : Step s l s') (h : Inv s S) :
    ∃ S', Inv s' S' := by
  obtain ⟨S', hS', -⟩ := hstep.sends h
  exact ⟨S', hS'⟩

end

omit [DecidableEq ι] in
theorem inv_init : Inv (init : Threads σ φ ψ ι) (fun _ _ => none) :=
  ⟨registry_new, (length_contextResize _ 32).ge, fun _ => trivial⟩

theorem goto_pc (s : Threads σ φ ψ ι) (m : IOManager σ φ ψ) (i : ι) (p : Pc σ φ ψ) (j : ι) :
    (s.goto m i p).pc j = if j = i then p else s.pc j := by
  simp only [goto, Function.update_apply]

/-- An operation is begun by `find` only. -/
theorem Step.op {s s' : Threads σ φ ψ ι} {l : Label σ φ ψ ι} (hstep : Step s l s') {j : ι}
    {op : Op σ φ ψ} (hop : (s'.pc j).op = some op) :
    (s.pc j).op = some op ∨ l = .find j op := by
  cases hstep with
  | @find i hpc op' =>
    rw [goto_pc] at hop
    split at hop
    · rename_i hji
      subst hji
      refine Or.inr ?_
      have heq : op' = op := by
        revert hop
        cases s.mgr.lookup op'.fd with
        | some a => exact Option.some.inj
        | none =>
          simp only [found]
          split
          · exact Option.some.inj
          · intro hop
            cases hop
      rw [heq]
    · exact Or.inl hop
  | @grow i op' hpc =>
    rw [goto_pc] at hop
    split at hop
    · rename_i hji
      subst hji
      rw [hpc]
      exact Or.inl hop
    · exact Or.inl hop
  | lock | wait | abort =>
    rw [goto_pc] at hop
    split at hop
    · cases hop
    · exact Or.inl hop
  | dispatch =>
    rw [goto_pc] at hop
    split at hop
    · split at hop <;> cases hop
    · exact Or.inl hop

theorem run_inv {ls : List (Label σ φ ψ ι)} {s : Threads σ φ ψ ι} (h : Run Step init ls s) :
    ∃ S, Inv s S :=
  h.invariant (I := fun s => ∃ S, Inv s S) (fun _ _ _ ⟨_, hS⟩ hstep => hstep.inv hS)
    ⟨_, inv_init⟩

/-- `addEvent` on a worker thread, with a callback. -/
def addRead (fd : Nat) : Op Nat Nat Nat := .addEvent fd .READ (some 7) ⟨some 0, 1, true⟩

end Threads

end Captain.IOManager
