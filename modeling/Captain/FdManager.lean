import Captain.Transition
import Mathlib.Data.List.Basic

/-!
# `FdManager`: the table of file descriptor contexts (`captain/fd_manager.cpp`)

A `FdCtx::ptr` is the number of the context among those allocated so far, so two pointers are
equal exactly when they are the same object. Every index into `m_datas` is checked against its
size: an index past the end is the fault `outOfRange`.

Descriptors are not negative here: the sizes are compared as `int`, so `get(-1)` would read
`m_datas[-1]`.

`get` creates a context without growing the table. `safe_iff` says what that costs over whole
sequences of calls: everything the table promises (`Safe`) holds exactly for the sequences that
ask to create contexts below the 64 slots of the constructor.
-/

namespace Captain

open Transition

/-- `FdCtx`. -/
structure FdCtx where
  m_isInit : Bool
  m_isSocket : Bool
  m_sysNonblock : Bool
  m_userNonblock : Bool
  m_isClosed : Bool
  m_fd : Nat
  m_recvTimeout : UInt64
  m_sendTimeout : UInt64
  deriving DecidableEq, Repr

/-- `FdCtx::init`. `stat` is what `fstat` reports for the descriptor: `none` when it fails, else
whether the file is a socket, whose `O_NONBLOCK` the source then sets in the kernel. -/
def FdCtx.init (c : FdCtx) (stat : Option Bool) : FdCtx :=
  if c.m_isInit then c
  else
    let c := { c with m_recvTimeout := -1, m_sendTimeout := -1 }
    let c := match stat with
      | none => { c with m_isInit := false, m_isSocket := false }
      | some sock => { c with m_isInit := true, m_isSocket := sock }
    { c with
      m_sysNonblock := c.m_isSocket
      m_userNonblock := false
      m_isClosed := false }

/-- `FdCtx::FdCtx(fd)`. -/
def FdCtx.new (fd : Nat) (stat : Option Bool) : FdCtx :=
  FdCtx.init
    { m_isInit := false, m_isSocket := false, m_sysNonblock := false, m_userNonblock := false
      m_isClosed := false, m_fd := fd, m_recvTimeout := -1, m_sendTimeout := -1 } stat

def SO_RCVTIMEO : Nat := 20

def SO_SNDTIMEO : Nat := 21

/-- `FdCtx::setTimeout`. -/
def FdCtx.setTimeout (c : FdCtx) (type : Nat) (v : UInt64) : FdCtx :=
  if type = SO_RCVTIMEO then { c with m_recvTimeout := v } else { c with m_sendTimeout := v }

/-- `FdCtx::getTimeout`. -/
def FdCtx.getTimeout (c : FdCtx) (type : Nat) : UInt64 :=
  if type = SO_RCVTIMEO then c.m_recvTimeout else c.m_sendTimeout

structure FdManager where
  m_datas : List (Option Nat)
  /-- the contexts allocated so far -/
  ctxs : List FdCtx
  deriving DecidableEq, Repr

namespace FdManager

/-- `m_datas[fd]` with `fd` past the end of the vector. -/
structure OutOfRange where
  fd : Nat
  size : Nat
  deriving DecidableEq, Repr

/-- `FdManager::FdManager()`. -/
def new : FdManager := ⟨List.replicate 64 none, []⟩

/-- The section of `FdManager::get` under the read lock: what it returns, or `none` when it goes
on to create the context. -/
def lookup (m : FdManager) (fd : Nat) (auto_create : Bool) :
    Except OutOfRange (Option (Option Nat)) :=
  if m.m_datas.length ≤ fd then
    if auto_create = false then .ok (some none) else .ok none
  else
    match m.m_datas[fd]? with
    | none => .error ⟨fd, m.m_datas.length⟩
    | some p => if p.isSome ∨ auto_create = false then .ok (some p) else .ok none

/-- The section of `FdManager::get` under the write lock. -/
def create (m : FdManager) (fd : Nat) (stat : Option Bool) :
    Except OutOfRange (FdManager × Option Nat) :=
  let ctx := m.ctxs.length
  if fd < m.m_datas.length then
    .ok (⟨m.m_datas.set fd (some ctx), m.ctxs ++ [FdCtx.new fd stat]⟩, some ctx)
  else .error ⟨fd, m.m_datas.length⟩

/-- `FdManager::get`. -/
def get (m : FdManager) (fd : Nat) (auto_create : Bool) (stat : Option Bool) :
    Except OutOfRange (FdManager × Option Nat) := do
  match ← m.lookup fd auto_create with
  | some p => .ok (m, p)
  | none => m.create fd stat

/-- `FdManager::del`. -/
def del (m : FdManager) (fd : Nat) : Except OutOfRange FdManager :=
  if m.m_datas.length ≤ fd then .ok m
  else if fd < m.m_datas.length then .ok { m with m_datas := m.m_datas.set fd none }
  else .error ⟨fd, m.m_datas.length⟩

/-! ## Sequences of calls -/

inductive Call
  | get (fd : Nat) (auto_create : Bool) (stat : Option Bool)
  | del (fd : Nat)
  deriving DecidableEq, Repr

def Call.fd : Call → Nat
  | .get fd _ _ => fd
  | .del fd => fd

/-- A call and the pointer it returns (null for `del`). -/
abbrev Entry := Call × Option Nat

def call (m : FdManager) : Call → Except OutOfRange (FdManager × Option Nat)
  | .get fd auto_create stat => m.get fd auto_create stat
  | .del fd => (m.del fd).map fun m => (m, none)

/-- A call whose accesses to `m_datas` are all in range. -/
def Trans (m : FdManager) (e : Entry) (m' : FdManager) : Prop := m.call e.1 = .ok (m', e.2)

/-- The pointer stored for `fd`, null when there is no slot for it. -/
def slot (m : FdManager) (fd : Nat) : Option Nat := (m.m_datas[fd]?).join

/-- No context was created for `fd` since the last `del(fd)`. -/
def Absent (fd : Nat) (log : List Entry) : Prop :=
  ∃ pre post, log = pre ++ post ∧ (pre = [] ∨ ∃ q r, pre = q ++ [(.del fd, r)]) ∧
    ∀ e ∈ post, ∀ stat, e.1 ≠ .get fd true stat

/-- What the table promises for the sequence of calls `cs` made on a fresh table: every access
to `m_datas` is in range and, in the log of the calls with the pointers they returned,
`get(fd, true)` returns a context, which every later `get(fd)` returns until `del(fd)`, while
`get(fd, false)` returns null for an absent `fd`; no call changes the slot of another `fd`. -/
def Safe (cs : List Call) : Prop :=
  ∃ log m, Run Trans new log m ∧ log.map Prod.fst = cs ∧
    (∀ pre fd stat p mid auto_create stat' q post,
      log = pre ++ (.get fd true stat, p) :: (mid ++ (.get fd auto_create stat', q) :: post) →
      (∀ e ∈ mid, e.1 ≠ .del fd) → q = p) ∧
    (∀ pre fd stat p post, log = pre ++ (.get fd true stat, p) :: post → p ≠ none) ∧
    (∀ pre fd stat p post, log = pre ++ (.get fd false stat, p) :: post → Absent fd pre →
      p = none) ∧
    (∀ pre e post m₁ m₂, log = pre ++ e :: post → Run Trans new pre m₁ → Trans m₁ e m₂ →
      ∀ fd, fd ≠ e.1.fd → m₂.slot fd = m₁.slot fd)

/-! ## What each call does -/

theorem slot_of_length_le {m : FdManager} {fd : Nat} (h : m.m_datas.length ≤ fd) :
    m.slot fd = none := by
  rw [slot, List.getElem?_eq_none h]
  rfl

theorem slot_set {ds : List (Option Nat)} {cs : List FdCtx} {fd : Nat} {p : Option Nat}
    (h : fd < ds.length) : slot ⟨ds.set fd p, cs⟩ fd = p := by
  simp [slot, h]

theorem slot_set_ne {ds : List (Option Nat)} {cs cs' : List FdCtx} {fd fd' : Nat}
    {p : Option Nat} (h : fd' ≠ fd) : slot ⟨ds.set fd p, cs⟩ fd' = slot ⟨ds, cs'⟩ fd' := by
  simp only [slot, List.getElem?_set_ne h.symm]

/-- `get` returns the context it finds, or a null pointer it was not asked to replace, and
changes nothing; or it puts a new context into an empty slot. -/
theorem get_cases {m m' : FdManager} {fd : Nat} {auto_create : Bool} {stat : Option Bool}
    {p : Option Nat} (h : m.get fd auto_create stat = .ok (m', p)) :
    (m' = m ∧ p = m.slot fd ∧ (p.isSome ∨ auto_create = false)) ∨
      (auto_create = true ∧ m.slot fd = none ∧ fd < m.m_datas.length ∧
        p = some m.ctxs.length ∧
        m' = ⟨m.m_datas.set fd p, m.ctxs ++ [FdCtx.new fd stat]⟩) := by
  unfold get lookup create at h
  by_cases hlen : m.m_datas.length ≤ fd
  · cases auto_create with
    | false =>
      simp only [hlen, if_true, bind, Except.bind, Except.ok.injEq, Prod.mk.injEq] at h
      obtain ⟨rfl, rfl⟩ := h
      exact Or.inl ⟨rfl, (slot_of_length_le hlen).symm, Or.inr rfl⟩
    | true =>
      simp [hlen, bind, Except.bind, Nat.not_lt.mpr hlen] at h
  · have hlt : fd < m.m_datas.length := Nat.lt_of_not_le hlen
    have hslot : m.slot fd = m.m_datas[fd] := by simp [slot, hlt]
    simp only [hlen, if_false, bind, Except.bind, List.getElem?_eq_getElem hlt] at h
    by_cases hfound : m.m_datas[fd].isSome ∨ auto_create = false
    · simp only [hfound, if_true, Except.ok.injEq, Prod.mk.injEq] at h
      obtain ⟨rfl, rfl⟩ := h
      exact Or.inl ⟨rfl, hslot.symm, hfound⟩
    · simp only [hfound, if_false, hlt, if_true, Except.ok.injEq, Prod.mk.injEq] at h
      obtain ⟨rfl, rfl⟩ := h
      simp only [not_or, Option.not_isSome_iff_eq_none, Bool.not_eq_false] at hfound
      exact Or.inr ⟨hfound.2, hslot.trans hfound.1, hlt, rfl, rfl⟩

theorem del_cases {m m' : FdManager} {fd : Nat} (h : m.del fd = .ok m') :
    (m' = m ∧ m.m_datas.length ≤ fd) ∨
      (fd < m.m_datas.length ∧ m' = ⟨m.m_datas.set fd none, m.ctxs⟩) := by
  unfold del at h
  by_cases hlen : m.m_datas.length ≤ fd
  · rw [if_pos hlen] at h
    cases h
    exact Or.inl ⟨rfl, hlen⟩
  · have hlt := Nat.lt_of_not_le hlen
    rw [if_neg hlen, if_pos hlt] at h
    cases h
    exact Or.inr ⟨hlt, rfl⟩

theorem trans_get {m m' : FdManager} {fd : Nat} {auto_create : Bool} {stat : Option Bool}
    {p : Option Nat} (h : Trans m (.get fd auto_create stat, p) m') :
    m.get fd auto_create stat = .ok (m', p) := h

theorem trans_del {m m' : FdManager} {fd : Nat} {p : Option Nat}
    (h : Trans m (.del fd, p) m') : m.del fd = .ok m' := by
  unfold Trans call at h
  cases hd : m.del fd with
  | error e => simp [hd, Except.map] at h
  | ok m₁ =>
    simp only [hd, Except.map, Except.ok.injEq, Prod.mk.injEq] at h
    rw [h.1]

/-- No call changes the number of slots. -/
theorem trans_length {m m' : FdManager} {e : Entry} (h : Trans m e m') :
    m'.m_datas.length = m.m_datas.length := by
  obtain ⟨c, p⟩ := e
  cases c with
  | get fd auto_create stat =>
    rcases get_cases (trans_get h) with ⟨rfl, -⟩ | ⟨-, -, -, -, rfl⟩
    · rfl
    · exact List.length_set
  | del fd =>
    rcases del_cases (trans_del h) with ⟨rfl, -⟩ | ⟨-, rfl⟩
    · rfl
    · exact List.length_set

/-- A call on one descriptor leaves the slots of the others alone. -/
theorem trans_slot_ne {m m' : FdManager} {e : Entry} (h : Trans m e m') {fd : Nat}
    (hfd : fd ≠ e.1.fd) : m'.slot fd = m.slot fd := by
  obtain ⟨c, p⟩ := e
  cases c with
  | get fd' auto_create stat =>
    rcases get_cases (trans_get h) with ⟨rfl, -⟩ | ⟨-, -, -, -, rfl⟩
    · rfl
    · exact slot_set_ne hfd
  | del fd' =>
    rcases del_cases (trans_del h) with ⟨rfl, -⟩ | ⟨-, rfl⟩
    · rfl
    · exact slot_set_ne hfd

/-- What `get` returns is what the slot holds afterwards. -/
theorem trans_get_slot {m m' : FdManager} {fd : Nat} {auto_create : Bool} {stat : Option Bool}
    {p : Option Nat} (h : Trans m (.get fd auto_create stat, p) m') :
    p = m'.slot fd ∧ (auto_create = true → p ≠ none ∧ fd < m.m_datas.length) := by
  rcases get_cases (trans_get h) with ⟨rfl, hp, hcase⟩ | ⟨-, -, hlt, hp, rfl⟩
  · refine ⟨hp, fun hauto => ?_⟩
    have hsome : p.isSome := by
      rcases hcase with hcase | hcase
      · exact hcase
      · rw [hauto] at hcase
        cases hcase
    refine ⟨Option.isSome_iff_ne_none.mp hsome, ?_⟩
    by_contra hlen
    rw [hp, slot_of_length_le (Nat.le_of_not_lt hlen)] at hsome
    cases hsome
  · refine ⟨(slot_set hlt).symm, fun _ => ⟨?_, hlt⟩⟩
    rw [hp]
    exact Option.some_ne_none _

/-- A context stays in its slot over every call but `del` of its descriptor. -/
theorem trans_keeps {m m' : FdManager} {e : Entry} {fd r : Nat} (h : Trans m e m')
    (hs : m.slot fd = some r) (he : e.1 ≠ .del fd) : m'.slot fd = some r := by
  by_cases hfd : fd = e.1.fd
  · obtain ⟨c, p⟩ := e
    cases c with
    | get fd' auto_create stat =>
      change fd = fd' at hfd
      subst hfd
      rcases get_cases (trans_get h) with ⟨rfl, -⟩ | ⟨-, hnone, -⟩
      · exact hs
      · rw [hs] at hnone
        cases hnone
    | del fd' =>
      change fd = fd' at hfd
      subst hfd
      exact absurd rfl he
  · rw [trans_slot_ne h hfd, hs]

/-- An empty slot is filled by `get(fd, true)` only. -/
theorem trans_stays_absent {m m' : FdManager} {e : Entry} {fd : Nat} (h : Trans m e m')
    (hs : m.slot fd = none) (he : ∀ stat, e.1 ≠ .get fd true stat) : m'.slot fd = none := by
  by_cases hfd : fd = e.1.fd
  · obtain ⟨c, p⟩ := e
    cases c with
    | get fd' auto_create stat =>
      change fd = fd' at hfd
      subst hfd
      rcases get_cases (trans_get h) with ⟨rfl, -⟩ | ⟨hauto, -⟩
      · exact hs
      · subst hauto
        exact absurd rfl (he stat)
    | del fd' =>
      change fd = fd' at hfd
      subst hfd
      rcases del_cases (trans_del h) with ⟨rfl, -⟩ | ⟨hlt, rfl⟩
      · exact hs
      · exact slot_set hlt
  · rw [trans_slot_ne h hfd, hs]

theorem trans_del_slot {m m' : FdManager} {fd : Nat} {p : Option Nat}
    (h : Trans m (.del fd, p) m') : m'.slot fd = none := by
  rcases del_cases (trans_del h) with ⟨rfl, hlen⟩ | ⟨hlt, rfl⟩
  · exact slot_of_length_le hlen
  · exact slot_set hlt

/-! ## What whole sequences of calls do -/

theorem run_length {m m' : FdManager} {log : List Entry} (h : Run Trans m log m') :
    m'.m_datas.length = m.m_datas.length :=
  h.invariant (I := fun n => n.m_datas.length = m.m_datas.length)
    (fun _ _ _ hs hst => (trans_length hst).trans hs) rfl

theorem run_keeps {m m' : FdManager} {log : List Entry} {fd r : Nat} (h : Run Trans m log m')
    (hs : m.slot fd = some r) (hlog : ∀ e ∈ log, e.1 ≠ .del fd) : m'.slot fd = some r := by
  induction h with
  | nil => exact hs
  | cons hst _ ih =>
    exact ih (trans_keeps hst hs (hlog _ List.mem_cons_self))
      fun e he => hlog e (List.mem_cons_of_mem _ he)

theorem run_stays_absent {m m' : FdManager} {log : List Entry} {fd : Nat}
    (h : Run Trans m log m') (hs : m.slot fd = none)
    (hlog : ∀ e ∈ log, ∀ stat, e.1 ≠ .get fd true stat) : m'.slot fd = none := by
  induction h with
  | nil => exact hs
  | cons hst _ ih =>
    exact ih (trans_stays_absent hst hs (hlog _ List.mem_cons_self))
      fun e he => hlog e (List.mem_cons_of_mem _ he)

theorem slot_new (fd : Nat) : new.slot fd = none := by
  simp only [slot, new, List.getElem?_replicate]
  split <;> rfl

theorem run_absent {m : FdManager} {log : List Entry} {fd : Nat} (h : Run Trans new log m)
    (ha : Absent fd log) : m.slot fd = none := by
  obtain ⟨pre, post, rfl, hpre, hpost⟩ := ha
  obtain ⟨m₁, h₁, h₂⟩ := Run.append_iff.mp h
  refine run_stays_absent h₂ ?_ hpost
  rcases hpre with rfl | ⟨q, r, rfl⟩
  · rw [Run.nil_iff.mp h₁]
    exact slot_new fd
  · obtain ⟨m₂, -, hdel⟩ := Run.append_iff.mp h₁
    obtain ⟨m₃, hst, hnil⟩ := Run.cons_iff.mp hdel
    rw [Run.nil_iff.mp hnil]
    exact trans_del_slot hst

/-- A call that creates no context past the table runs without a fault. -/
theorem call_ok {m : FdManager} {c : Call}
    (hc : ∀ fd stat, c = .get fd true stat → fd < m.m_datas.length) :
    ∃ m' p, Trans m (c, p) m' := by
  cases c with
  | get fd auto_create stat =>
    cases auto_create with
    | false =>
      by_cases hlen : m.m_datas.length ≤ fd
      · exact ⟨m, none, by simp [Trans, call, get, lookup, hlen, bind, Except.bind]⟩
      · have hlt : fd < m.m_datas.length := Nat.lt_of_not_le hlen
        exact ⟨m, m.m_datas[fd], by simp [Trans, call, get, lookup, hlt, hlen, bind, Except.bind]⟩
    | true =>
      have hlt := hc fd stat rfl
      have hlen : ¬m.m_datas.length ≤ fd := Nat.not_le.mpr hlt
      by_cases hp : m.m_datas[fd].isSome
      · exact ⟨m, m.m_datas[fd],
          by simp [Trans, call, get, lookup, hlt, hlen, hp, bind, Except.bind]⟩
      · exact ⟨⟨m.m_datas.set fd (some m.ctxs.length), m.ctxs ++ [FdCtx.new fd stat]⟩,
          some m.ctxs.length,
          by simp [Trans, call, get, lookup, create, hlt, hlen, hp, bind, Except.bind]⟩
  | del fd =>
    by_cases hlen : m.m_datas.length ≤ fd
    · exact ⟨m, none, by simp [Trans, call, del, hlen, Except.map]⟩
    · have hlt : fd < m.m_datas.length := Nat.lt_of_not_le hlen
      exact ⟨{ m with m_datas := m.m_datas.set fd none }, none,
        by simp [Trans, call, del, hlen, hlt, Except.map]⟩

theorem run_ok (m : FdManager) (cs : List Call)
    (hcs : ∀ fd stat, .get fd true stat ∈ cs → fd < m.m_datas.length) :
    ∃ log m', Run Trans m log m' ∧ log.map Prod.fst = cs := by
  induction cs generalizing m with
  | nil => exact ⟨[], m, .nil m, rfl⟩
  | cons c cs ih =>
    obtain ⟨m₁, p, hst⟩ := call_ok (m := m) (c := c)
      fun fd stat hc => hcs fd stat (hc ▸ List.mem_cons_self)
    obtain ⟨log, m', hrun, hlog⟩ := ih m₁ fun fd stat hmem => by
      rw [trans_length hst]
      exact hcs fd stat (List.mem_cons_of_mem _ hmem)
    exact ⟨(c, p) :: log, m', .cons hst hrun, by rw [List.map_cons, hlog]⟩

/-- **The table is safe exactly for descriptors below its 64 slots.** A sequence of calls on a
fresh table keeps every promise of `Safe` if and only if each `get(fd, true)` in it has
`fd < 64`. -/
theorem safe_iff (cs : List Call) :
    Safe cs ↔ ∀ fd stat, .get fd true stat ∈ cs → fd < 64 := by
  constructor
  · rintro ⟨log, m, hrun, rfl, -⟩ fd stat hmem
    obtain ⟨⟨c, p⟩, he, hc⟩ := List.mem_map.mp hmem
    obtain ⟨pre, post, rfl⟩ := List.append_of_mem he
    obtain ⟨m₁, hpre, hrest⟩ := Run.append_iff.mp hrun
    obtain ⟨m₂, hst, -⟩ := Run.cons_iff.mp hrest
    cases hc
    have hlt := ((trans_get_slot hst).2 rfl).2
    rw [run_length hpre] at hlt
    simpa [new] using hlt
  · intro hcs
    obtain ⟨log, m, hrun, hlog⟩ := run_ok new cs (by simpa [new] using hcs)
    refine ⟨log, m, hrun, hlog, ?_, ?_, ?_, ?_⟩
    · rintro pre fd stat p mid auto_create stat' q post rfl hmid
      obtain ⟨m₁, -, hrest⟩ := Run.append_iff.mp hrun
      obtain ⟨m₂, hget, hrest⟩ := Run.cons_iff.mp hrest
      obtain ⟨m₃, hmidrun, hrest⟩ := Run.append_iff.mp hrest
      obtain ⟨m₄, hget', -⟩ := Run.cons_iff.mp hrest
      obtain ⟨hp, hnew⟩ := trans_get_slot hget
      obtain ⟨r, hr⟩ := Option.ne_none_iff_exists'.mp (hnew rfl).1
      have h₃ : m₃.slot fd = some r := run_keeps hmidrun (hp ▸ hr) hmid
      have h₄ : m₄.slot fd = some r := trans_keeps hget' h₃ (by simp)
      rw [(trans_get_slot hget').1, h₄, hr]
    · rintro pre fd stat p post rfl
      obtain ⟨m₁, -, hrest⟩ := Run.append_iff.mp hrun
      obtain ⟨m₂, hget, -⟩ := Run.cons_iff.mp hrest
      exact ((trans_get_slot hget).2 rfl).1
    · rintro pre fd stat p post rfl ha
      obtain ⟨m₁, hpre, hrest⟩ := Run.append_iff.mp hrun
      obtain ⟨m₂, hget, -⟩ := Run.cons_iff.mp hrest
      rw [(trans_get_slot hget).1]
      exact trans_stays_absent hget (run_absent hpre ha) (by simp)
    · intro pre e post m₁ m₂ _ _ hst fd hfd
      exact trans_slot_ne hst hfd

/-- The first descriptor past the 64 slots: creating its context writes outside `m_datas`. -/
theorem not_safe_64 :
    new.get 64 true (some true) = .error ⟨64, 64⟩ ∧ ¬Safe [.get 64 true (some true)] := by
  refine ⟨by decide, fun h => ?_⟩
  obtain ⟨log, m, hrun, hlog, -⟩ := h
  obtain ⟨⟨c, p⟩, rfl, hc⟩ := List.map_eq_singleton_iff.mp hlog
  cases hc
  obtain ⟨m₁, hst, -⟩ := Run.cons_iff.mp hrun
  have hget := trans_get hst
  rw [show new.get 64 true (some true) = .error ⟨64, 64⟩ by decide] at hget
  cases hget

end FdManager

end Captain
