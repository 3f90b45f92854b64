import Captain.Hook.Descriptor

/-!
# The two views of `O_NONBLOCK`

A managed socket is non-blocking in the kernel, so that no call on it blocks the worker, while
`fcntl(F_GETFL)` reports what the user asked for. `fcntl(F_SETFL)` keeps `O_NONBLOCK` in the
argument it passes on; `ioctl(FIONBIO)` records the request and passes its argument on as it is.

`nonblock_iff`: along a sequence of hooked calls both views are right after every call if and only
if no `FIONBIO` call with zero reaches a managed open socket, and the kernel hands out no
descriptor past the 64 slots of the table.
-/

namespace Captain

open Transition

/-! ## The flag -/

theorem or_and_distrib (x y z : UInt32) : (x ||| y) &&& z = x &&& z ||| y &&& z := by
  apply UInt32.toBitVec_inj.mp
  simp only [UInt32.toBitVec_and, UInt32.toBitVec_or, BitVec.and_or_distrib_right]

theorem or_O_NONBLOCK (x : UInt32) : (x ||| O_NONBLOCK) &&& O_NONBLOCK = O_NONBLOCK := by
  apply UInt32.toBitVec_inj.mp
  apply BitVec.eq_of_getLsbD_eq
  intro i _
  simp only [UInt32.toBitVec_and, UInt32.toBitVec_or, BitVec.getLsbD_and, BitVec.getLsbD_or]
  cases x.toBitVec.getLsbD i <;> simp

theorem and_not_O_NONBLOCK (x : UInt32) : (x &&& ~~~O_NONBLOCK) &&& O_NONBLOCK = 0 := by
  rw [UInt32.and_assoc]
  have hzero : ~~~O_NONBLOCK &&& O_NONBLOCK = 0 := by decide
  rw [hzero, UInt32.and_zero]

/-- The flag is a single bit. -/
theorem and_O_NONBLOCK (x : UInt32) (h : x &&& O_NONBLOCK ≠ 0) :
    x &&& O_NONBLOCK = O_NONBLOCK := by
  have hbits : ∀ i < 32, O_NONBLOCK.toBitVec.getLsbD i = decide (i = 11) := by decide
  cases hbit : x.toBitVec.getLsbD 11 with
  | true =>
    apply UInt32.toBitVec_inj.mp
    apply BitVec.eq_of_getLsbD_eq
    intro i hi
    rw [UInt32.toBitVec_and, BitVec.getLsbD_and, hbits i hi]
    by_cases hi' : i = 11
    · simp [hi', hbit]
    · simp [hi']
  | false =>
    apply absurd _ h
    apply UInt32.toBitVec_inj.mp
    apply BitVec.eq_of_getLsbD_eq
    intro i hi
    rw [UInt32.toBitVec_and, BitVec.getLsbD_and, hbits i hi]
    by_cases hi' : i = 11
    · subst hi'
      rw [hbit]
      rfl
    · simp [hi']

/-- `F_SETFL` sets the flag as its argument says. -/
theorem setfl_O_NONBLOCK (arg flags : UInt32) :
    (arg &&& SETFL_MASK ||| flags &&& ~~~SETFL_MASK) &&& O_NONBLOCK = arg &&& O_NONBLOCK := by
  have hmask : SETFL_MASK &&& O_NONBLOCK = O_NONBLOCK := by decide
  have hnot : ~~~SETFL_MASK &&& O_NONBLOCK = 0 := by decide
  rw [or_and_distrib, UInt32.and_assoc, UInt32.and_assoc, hmask, hnot, UInt32.and_zero,
    UInt32.or_zero]

namespace Descriptors

open FdManager

/-! ## What the calls do with the table -/

theorem get_false (s : Descriptors) (fd : Nat) : s.get fd false = .ok (s, s.mgr.slot fd) := by
  by_cases hlen : s.mgr.m_datas.length ≤ fd
  · simp [get, lookup, hlen, bind, Except.bind, slot_of_length_le hlen]
  · have hlt : fd < s.mgr.m_datas.length := Nat.lt_of_not_le hlen
    simp [get, lookup, hlen, bind, Except.bind, slot, hlt]

theorem get_true {s : Descriptors} {fd : Nat} (hnone : s.mgr.slot fd = none)
    (hfd : fd < s.mgr.m_datas.length) :
    s.get fd true = .ok (⟨s.kernel.initCtx fd, s.mgr.m_datas.set fd (some s.mgr.ctxs.length),
      s.mgr.ctxs ++ [FdCtx.new fd (s.kernel.fstat fd)]⟩, some s.mgr.ctxs.length) := by
  have hlen : ¬s.mgr.m_datas.length ≤ fd := Nat.not_le.mpr hfd
  have hslot : s.mgr.m_datas[fd] = none := by
    simpa [slot, hfd] using hnone
  simp [get, lookup, create, hlen, hfd, hslot, bind, Except.bind]

theorem get_true_outOfRange {s : Descriptors} {fd : Nat} (hfd : ¬fd < s.mgr.m_datas.length) :
    s.get fd true = .error ⟨fd, s.mgr.m_datas.length⟩ := by
  simp [get, lookup, create, Nat.not_lt.mp hfd, hfd, bind, Except.bind]

/-! ## The invariant -/

/-- The context `r` in the slot of `fd` is that of an open socket, and both have the flag as they
should; `asked` is what the user last asked for. -/
structure Managed (s : Descriptors) (asked : Nat → Bool) (fd r : Nat) : Prop where
  file : ∃ f, s.kernel fd = some f ∧ f.isSocket = true ∧ f.flags &&& O_NONBLOCK = O_NONBLOCK
  ctx : ∃ c, s.mgr.ctxs[r]? = some c ∧ c.m_isSocket = true ∧ c.m_sysNonblock = true ∧
    c.m_isClosed = false ∧ c.m_userNonblock = asked fd

structure Kept (s : Descriptors) (asked : Nat → Bool) : Prop where
  slots : s.mgr.m_datas.length = 64
  managed : ∀ fd r, s.mgr.slot fd = some r → Managed s asked fd r
  apart : ∀ fd fd' r, s.mgr.slot fd = some r → s.mgr.slot fd' = some r → fd = fd'

/-- **The two views.** Every open socket with a context is non-blocking in the kernel, and
`F_GETFL` reports what the user asked for. -/
def Promise (s : Descriptors) (asked : Nat → Bool) : Prop :=
  ∀ fd r f, s.mgr.slot fd = some r → s.kernel fd = some f → f.isSocket = true →
    f.flags &&& O_NONBLOCK ≠ 0 ∧
      ∃ s' arg, s.fcntl_getfl fd = .ok (s', arg) ∧ (arg &&& O_NONBLOCK ≠ 0 ↔ asked fd = true)

theorem Managed.hooked {s : Descriptors} {asked : Nat → Bool} {fd r : Nat}
    (h : Managed s asked fd r) : ∃ c, s.hooked (some r) = some c ∧ c.m_sysNonblock = true ∧
      c.m_userNonblock = asked fd := by
  obtain ⟨c, hc, hsock, hsys, hclosed, huser⟩ := h.ctx
  refine ⟨c, ?_, hsys, huser⟩
  simp [Descriptors.hooked, deref, hc, hsock, hclosed]

theorem Kept.promise {s : Descriptors} {asked : Nat → Bool} (h : Kept s asked) :
    Promise s asked := by
  intro fd r f hslot hf _
  have hm := h.managed fd r hslot
  obtain ⟨f', hf', -, hflag⟩ := hm.file
  rw [hf] at hf'
  cases hf'
  obtain ⟨c, hc, -, huser⟩ := hm.hooked
  refine ⟨by rw [hflag]; decide, s, if c.m_userNonblock then s.kernel.getfl fd ||| O_NONBLOCK
    else s.kernel.getfl fd &&& ~~~O_NONBLOCK, ?_, ?_⟩
  · simp only [fcntl_getfl, get_false, hslot, bind, Except.bind, hc]
  · rw [huser]
    cases asked fd with
    | true => simp [or_O_NONBLOCK, show O_NONBLOCK ≠ 0 by decide]
    | false => simp [and_not_O_NONBLOCK]

/-! ## Sequences of calls -/

inductive Call
  | socket (fd : Option Nat) (flags : UInt32)
  | accept (fd : Option Nat) (flags : UInt32)
  | setfl (fd : Nat) (arg : UInt32)
  | getfl (fd : Nat)
  | fionbio (d : Nat) (arg : UInt32)
  | close (fd : Nat)
  deriving DecidableEq, Repr

def call (s : Descriptors) : Call → Except OutOfRange (Descriptors × UInt32)
  | .socket fd flags => s.socket fd flags
  | .accept fd flags => s.accept fd flags
  | .setfl fd arg => s.fcntl_setfl fd arg
  | .getfl fd => s.fcntl_getfl fd
  | .fionbio d arg => s.ioctl_fionbio d arg
  | .close fd => s.close fd

/-- What the user has asked for after a call; on a new descriptor, nothing. -/
def askedBy (asked : Nat → Bool) : Call → Nat → Bool
  | .socket (some fd) _ => Function.update asked fd false
  | .accept (some fd) _ => Function.update asked fd false
  | .setfl fd arg => Function.update asked fd (arg &&& O_NONBLOCK ≠ 0)
  | .fionbio d arg => Function.update asked d (arg ≠ 0)
  | _ => asked

/-- The descriptors and, beside them, what the user last asked for on each. -/
structure Asked where
  fds : Descriptors
  asked : Nat → Bool

/-- A fresh table of contexts over the files `k`. -/
def start (k : Kernel) : Asked := ⟨⟨k, FdManager.new⟩, fun _ => false⟩

def next (s : Asked) (c : Call) : Option Asked :=
  match s.fds.call c with
  | .error _ => none
  | .ok (fds, _) => some ⟨fds, askedBy s.asked c⟩

/-- The kernel hands out numbers under which no file is open. -/
def Fresh (s : Asked) : Call → Prop
  | .socket (some fd) _ => s.fds.kernel fd = none
  | .accept (some fd) _ => s.fds.kernel fd = none
  | _ => True

/-- No number past the 64 slots, and no `FIONBIO` with zero on an open socket with a context. -/
def Harmless (s : Asked) : Call → Prop
  | .socket (some fd) _ => fd < 64
  | .accept (some fd) _ => fd < 64
  | .fionbio d arg => arg = 0 → s.fds.mgr.slot d = none ∨ s.fds.kernel.fstat d ≠ some true
  | _ => True

/-! ## Each call keeps the invariant -/

/-- A call on one descriptor leaves the others alone. -/
theorem Kept.of_one {s t : Descriptors} {asked asked' : Nat → Bool} (h : Kept s asked) (fd : Nat)
    (hlen : t.mgr.m_datas.length = s.mgr.m_datas.length)
    (hslot : ∀ fd', fd' ≠ fd → t.mgr.slot fd' = s.mgr.slot fd')
    (hctx : ∀ fd' r, fd' ≠ fd → s.mgr.slot fd' = some r → t.mgr.ctxs[r]? = s.mgr.ctxs[r]?)
    (hfile : ∀ fd', fd' ≠ fd → t.kernel fd' = s.kernel fd')
    (hasked : ∀ fd', fd' ≠ fd → asked' fd' = asked fd')
    (hfd : ∀ r, t.mgr.slot fd = some r →
      Managed t asked' fd r ∧ ∀ fd', fd' ≠ fd → s.mgr.slot fd' ≠ some r) : Kept t asked' where
  slots := hlen.trans h.slots
  managed fd' r hr := by
    by_cases hne : fd' = fd
    · subst hne
      exact (hfd r hr).1
    · rw [hslot fd' hne] at hr
      have hm := h.managed fd' r hr
      refine ⟨?_, ?_⟩
      · rw [hfile fd' hne]
        exact hm.file
      · rw [hctx fd' r hne hr, hasked fd' hne]
        exact hm.ctx
  apart fd₁ fd₂ r h₁ h₂ := by
    by_cases hne₁ : fd₁ = fd
    · by_cases hne₂ : fd₂ = fd
      · rw [hne₁, hne₂]
      · subst hne₁
        rw [hslot fd₂ hne₂] at h₂
        exact absurd h₂ ((hfd r h₁).2 fd₂ hne₂)
    · by_cases hne₂ : fd₂ = fd
      · subst hne₂
        rw [hslot fd₁ hne₁] at h₁
        exact absurd h₁ ((hfd r h₂).2 fd₁ hne₁)
      · rw [hslot fd₁ hne₁] at h₁
        rw [hslot fd₂ hne₂] at h₂
        exact h.apart fd₁ fd₂ r h₁ h₂

theorem initCtx_ne (k : Kernel) {fd fd' : Nat} (h : fd' ≠ fd) : k.initCtx fd fd' = k fd' := by
  unfold Kernel.initCtx
  split
  · dsimp only
    split
    · unfold Kernel.setfl
      split
      · rfl
      · exact Function.update_of_ne h _ _
    · rfl
  · rfl

theorem initCtx_self {k : Kernel} {fd : Nat} {f : File} (hf : k fd = some f)
    (hsock : f.isSocket = true) :
    ∃ f', k.initCtx fd fd = some f' ∧ f'.isSocket = true ∧
      f'.flags &&& O_NONBLOCK = O_NONBLOCK := by
  have hstat : k.fstat fd = some true := by rw [Kernel.fstat, hf, Option.map_some, hsock]
  rw [Kernel.initCtx, if_pos hstat]
  simp only [Kernel.getfl, hf]
  split
  · simp only [Kernel.setfl, hf, Function.update_self]
    exact ⟨_, rfl, hsock, by rw [setfl_O_NONBLOCK, or_O_NONBLOCK]⟩
  · rename_i hset
    exact ⟨f, hf, hsock, and_O_NONBLOCK f.flags hset⟩

/-- No file, no context. -/
theorem Kept.slot_of_closed {s : Descriptors} {asked : Nat → Bool} (h : Kept s asked) {fd : Nat}
    (hclosed : s.kernel fd = none) : s.mgr.slot fd = none := by
  cases hslot : s.mgr.slot fd with
  | none => rfl
  | some r =>
    obtain ⟨f, hf, -⟩ := (h.managed fd r hslot).file
    rw [hclosed] at hf
    cases hf

theorem Kept.lt_ctxs {s : Descriptors} {asked : Nat → Bool} (h : Kept s asked) {fd r : Nat}
    (hslot : s.mgr.slot fd = some r) : r < s.mgr.ctxs.length := by
  obtain ⟨c, hc, -⟩ := (h.managed fd r hslot).ctx
  exact (List.getElem?_eq_some_iff.mp hc).1

/-- A new socket gets a context of its own and is made non-blocking. -/
theorem Kept.adopt {s : Descriptors} {asked : Nat → Bool} (h : Kept s asked) {fd : Nat}
    (hfresh : s.kernel fd = none) (hfd : fd < 64) (flags : UInt32) :
    ∃ s' rt, s.adopt (some (fd, ⟨true, flags⟩)) = .ok (s', rt) ∧
      Kept s' (Function.update asked fd false) := by
  have hnone := h.slot_of_closed hfresh
  have hlt : fd < s.mgr.m_datas.length := by
    rw [h.slots]
    exact hfd
  have hget := get_true (s := { s with kernel := Function.update s.kernel fd (some ⟨true, flags⟩) })
    hnone hlt
  rw [Descriptors.adopt]
  simp only [hget, bind, Except.bind]
  refine ⟨_, _, rfl, ?_⟩
  apply h.of_one fd
  · exact List.length_set
  · intro fd' hne
    exact slot_set_ne hne
  · intro fd' r hne hslot
    exact List.getElem?_append_left (h.lt_ctxs hslot)
  · intro fd' hne
    exact (initCtx_ne _ hne).trans (Function.update_of_ne hne _ _)
  · intro fd' hne
    exact Function.update_of_ne hne _ _
  · intro r hslot
    rw [slot_set hlt] at hslot
    cases hslot
    refine ⟨⟨initCtx_self (Function.update_self fd _ _) rfl, ?_⟩, ?_⟩
    · refine ⟨FdCtx.new fd (some true), ?_, rfl, rfl, rfl, ?_⟩
      · simp [Kernel.fstat]
      · rw [Function.update_self]
        rfl
    · intro fd' _ hslot
      exact Nat.lt_irrefl _ (h.lt_ctxs hslot)

/-- A request on a managed descriptor that sets the flag in the kernel. -/
theorem Kept.request {s : Descriptors} {asked : Nat → Bool} (h : Kept s asked) {fd r : Nat}
    (hslot : s.mgr.slot fd = some r) (v : Bool) {k : Kernel} {f : File} (hf : k fd = some f)
    (hsock : f.isSocket = true) (hflag : f.flags &&& O_NONBLOCK = O_NONBLOCK)
    (hk : ∀ fd', fd' ≠ fd → k fd' = s.kernel fd') :
    Kept { s.setUserNonblock (some r) v with kernel := k } (Function.update asked fd v) := by
  obtain ⟨c, hc, hcsock, hsys, hclosed, -⟩ := (h.managed fd r hslot).ctx
  apply h.of_one fd
  · rfl
  · intro fd' _
    rfl
  · intro fd' r' hne hslot'
    have hrr : r ≠ r' := by
      rintro rfl
      exact hne (h.apart fd' fd r hslot' hslot)
    exact List.getElem?_modify_ne _ _ hrr
  · exact hk
  · intro fd' hne
    exact Function.update_of_ne hne _ _
  · intro r' hslot'
    have hrr : r = r' := Option.some.inj (hslot.symm.trans hslot')
    subst hrr
    refine ⟨⟨⟨f, hf, hsock, hflag⟩, { c with m_userNonblock := v }, ?_, hcsock, hsys, hclosed, ?_⟩,
      fun fd' hne hslot' => hne (h.apart fd' fd r hslot' hslot)⟩
    · simp [setUserNonblock, List.getElem?_modify_eq, hc]
    · rw [Function.update_self]

/-- A call on a descriptor without a context. -/
theorem Kept.unmanaged {s : Descriptors} {asked asked' : Nat → Bool} (h : Kept s asked) {fd : Nat}
    (hslot : s.mgr.slot fd = none) {k : Kernel} (hk : ∀ fd', fd' ≠ fd → k fd' = s.kernel fd')
    (hasked : ∀ fd', fd' ≠ fd → asked' fd' = asked fd') :
    Kept { s with kernel := k } asked' := by
  refine h.of_one (t := { s with kernel := k }) fd rfl (fun _ _ => rfl) (fun _ _ _ _ => rfl) hk
    hasked ?_
  intro r hr
  change s.mgr.slot fd = some r at hr
  rw [hslot] at hr
  cases hr

theorem setfl_self {k : Kernel} {fd : Nat} {f : File} (hf : k fd = some f) (arg : UInt32) :
    (k.setfl fd arg).1 fd =
      some { f with flags := arg &&& SETFL_MASK ||| f.flags &&& ~~~SETFL_MASK } := by
  simp only [Kernel.setfl, hf, Function.update_self]

theorem fionbio_self {k : Kernel} {d : Nat} {f : File} (hf : k d = some f) (arg : UInt32) :
    (k.fionbio d arg).1 d = some { f with
      flags := if arg ≠ 0 then f.flags ||| O_NONBLOCK else f.flags &&& ~~~O_NONBLOCK } := by
  simp only [Kernel.fionbio, hf, Function.update_self]

theorem setfl_ne (k : Kernel) {fd fd' : Nat} (h : fd' ≠ fd) (arg : UInt32) :
    (k.setfl fd arg).1 fd' = k fd' := by
  unfold Kernel.setfl
  split
  · rfl
  · exact Function.update_of_ne h _ _

theorem fionbio_ne (k : Kernel) {d fd' : Nat} (h : fd' ≠ d) (arg : UInt32) :
    (k.fionbio d arg).1 fd' = k fd' := by
  unfold Kernel.fionbio
  split
  · rfl
  · exact Function.update_of_ne h _ _

theorem close_ne (k : Kernel) {fd fd' : Nat} (h : fd' ≠ fd) : (k.close fd).1 fd' = k fd' := by
  unfold Kernel.close
  split
  · rfl
  · exact Function.update_of_ne h _ _

theorem Kept.setfl {s : Descriptors} {asked : Nat → Bool} (h : Kept s asked) (fd : Nat)
    (arg : UInt32) : ∃ s' rt, s.fcntl_setfl fd arg = .ok (s', rt) ∧
      Kept s' (Function.update asked fd (arg &&& O_NONBLOCK ≠ 0)) := by
  unfold fcntl_setfl
  simp only [get_false, bind, Except.bind]
  cases hslot : s.mgr.slot fd with
  | none =>
    exact ⟨_, _, rfl, h.unmanaged hslot (fun fd' hne => setfl_ne _ hne _)
      fun fd' hne => Function.update_of_ne hne _ _⟩
  | some r =>
    have hm := h.managed fd r hslot
    obtain ⟨c, hc, hsys, -⟩ := hm.hooked
    obtain ⟨f, hf, hsock, -⟩ := hm.file
    simp only [hc, hsys, if_true]
    refine ⟨_, _, rfl, h.request hslot _ (setfl_self hf _) hsock ?_ fun fd' hne => setfl_ne _ hne _⟩
    rw [setfl_O_NONBLOCK, or_O_NONBLOCK]

theorem Kept.getfl {s : Descriptors} {asked : Nat → Bool} (h : Kept s asked) (fd : Nat) :
    ∃ s' rt, s.fcntl_getfl fd = .ok (s', rt) ∧ Kept s' asked := by
  unfold fcntl_getfl
  simp only [get_false, bind, Except.bind]
  split
  · exact ⟨_, _, rfl, h⟩
  · exact ⟨_, _, rfl, h⟩

theorem Kept.fionbio {s : Descriptors} {asked : Nat → Bool} (h : Kept s asked) (d : Nat)
    {arg : UInt32}
    (harg : arg = 0 → s.mgr.slot d = none ∨ s.kernel.fstat d ≠ some true) :
    ∃ s' rt, s.ioctl_fionbio d arg = .ok (s', rt) ∧
      Kept s' (Function.update asked d (arg ≠ 0)) := by
  unfold ioctl_fionbio
  simp only [get_false, bind, Except.bind]
  cases hslot : s.mgr.slot d with
  | none =>
    exact ⟨_, _, rfl, h.unmanaged hslot (fun fd' hne => fionbio_ne _ hne _)
      fun fd' hne => Function.update_of_ne hne _ _⟩
  | some r =>
    have hm := h.managed d r hslot
    obtain ⟨c, hc, -⟩ := hm.hooked
    obtain ⟨f, hf, hsock, -⟩ := hm.file
    have hne : arg ≠ 0 := by
      intro hzero
      rcases harg hzero with hnone | hstat
      · rw [hslot] at hnone
        cases hnone
      · exact hstat (by rw [Kernel.fstat, hf, Option.map_some, hsock])
    simp only [hc]
    refine ⟨_, _, rfl, h.request hslot _ (fionbio_self hf _) hsock ?_
      fun fd' hne => fionbio_ne _ hne _⟩
    rw [if_pos hne, or_O_NONBLOCK]

theorem Kept.close {s : Descriptors} {asked : Nat → Bool} (h : Kept s asked) (fd : Nat) :
    ∃ s' rt, s.close fd = .ok (s', rt) ∧ Kept s' asked := by
  unfold Descriptors.close
  simp only [get_false, bind, Except.bind]
  cases hslot : s.mgr.slot fd with
  | none =>
    exact ⟨_, _, rfl, h.unmanaged hslot (fun fd' hne => close_ne _ hne) fun _ _ => rfl⟩
  | some r =>
    have hlen : ¬s.mgr.m_datas.length ≤ fd := by
      intro hlen
      rw [slot_of_length_le hlen] at hslot
      cases hslot
    have hlt := Nat.lt_of_not_le hlen
    simp only [Option.isSome_some, if_true, del, hlen, if_false, hlt]
    refine ⟨_, _, rfl, ?_⟩
    refine h.of_one (t := ⟨_, _⟩) fd List.length_set (fun fd' hne => slot_set_ne hne)
      (fun _ _ _ _ => rfl) (fun fd' hne => close_ne _ hne) (fun _ _ => rfl) ?_
    intro r' hr
    rw [slot_set hlt] at hr
    cases hr

/-! ## Sequences -/

theorem next_of_call {s : Asked} {c : Call} {fds : Descriptors} {rt : UInt32}
    (h : s.fds.call c = .ok (fds, rt)) : next s c = some ⟨fds, askedBy s.asked c⟩ := by
  simp only [next, h]

/-- **Step lemma.** -/
theorem next_kept {s : Asked} {c : Call} (h : Kept s.fds s.asked) (hfresh : Fresh s c)
    (hharm : Harmless s c) : ∃ t, next s c = some t ∧ Kept t.fds t.asked := by
  cases c with
  | socket fd flags =>
    cases fd with
    | none => exact ⟨_, next_of_call rfl, h⟩
    | some fd =>
      obtain ⟨s', rt, hrun, hk⟩ := h.adopt hfresh hharm flags
      exact ⟨_, next_of_call hrun, hk⟩
  | accept fd flags =>
    cases fd with
    | none => exact ⟨_, next_of_call rfl, h⟩
    | some fd =>
      obtain ⟨s', rt, hrun, hk⟩ := h.adopt hfresh hharm flags
      exact ⟨_, next_of_call hrun, hk⟩
  | setfl fd arg =>
    obtain ⟨s', rt, hrun, hk⟩ := h.setfl fd arg
    exact ⟨_, next_of_call hrun, hk⟩
  | getfl fd =>
    obtain ⟨s', rt, hrun, hk⟩ := h.getfl fd
    exact ⟨_, next_of_call hrun, hk⟩
  | fionbio d arg =>
    obtain ⟨s', rt, hrun, hk⟩ := h.fionbio d hharm
    exact ⟨_, next_of_call hrun, hk⟩
  | close fd =>
    obtain ⟨s', rt, hrun, hk⟩ := h.close fd
    exact ⟨_, next_of_call hrun, hk⟩

/-- A descriptor past the 64 slots: the context is written outside the table. -/
theorem next_adopt_outOfRange {s : Asked} {fd : Nat} (h : Kept s.fds s.asked) (hfd : ¬fd < 64)
    (flags : UInt32) : next s (.socket (some fd) flags) = none ∧
      next s (.accept (some fd) flags) = none := by
  have hget := get_true_outOfRange
    (s := { s.fds with kernel := Function.update s.fds.kernel fd (some ⟨true, flags⟩) })
    (by rwa [h.slots])
  have hadopt : s.fds.adopt (some (fd, ⟨true, flags⟩)) =
      .error ⟨fd, s.fds.mgr.m_datas.length⟩ := by
    rw [adopt]
    simp only [hget, bind, Except.bind]
  constructor
  · simp only [next, call, socket, Option.map_some, hadopt]
  · simp only [next, call, accept, Option.map_some, hadopt]

/-- `FIONBIO` with zero makes a managed socket blocking in the kernel. -/
theorem not_promise_fionbio {s t : Asked} {d r : Nat} (h : Kept s.fds s.asked)
    (hslot : s.fds.mgr.slot d = some r) (ht : next s (.fionbio d 0) = some t) :
    ¬Promise t.fds t.asked := by
  have hm := h.managed d r hslot
  obtain ⟨c, hc, -⟩ := hm.hooked
  obtain ⟨f, hf, hsock, -⟩ := hm.file
  simp only [next, call, ioctl_fionbio, get_false, hslot, bind, Except.bind, hc] at ht
  cases ht
  intro hp
  have hfile := fionbio_self hf 0
  rw [if_neg fun hne => hne rfl] at hfile
  obtain ⟨hflag, -⟩ := hp d r _ hslot hfile hsock
  exact hflag (and_not_O_NONBLOCK f.flags)

theorem not_promise {s t : Asked} {c : Call} (h : Kept s.fds s.asked) (hharm : ¬Harmless s c)
    (ht : next s c = some t) : ¬Promise t.fds t.asked := by
  cases c with
  | socket fd flags =>
    cases fd with
    | none => exact absurd trivial hharm
    | some fd =>
      rw [(next_adopt_outOfRange h hharm flags).1] at ht
      cases ht
  | accept fd flags =>
    cases fd with
    | none => exact absurd trivial hharm
    | some fd =>
      rw [(next_adopt_outOfRange h hharm flags).2] at ht
      cases ht
  | setfl | getfl | close => exact absurd trivial hharm
  | fionbio d arg =>
    simp only [Harmless, Classical.not_imp, not_or] at hharm
    obtain ⟨rfl, hsome, -⟩ := hharm
    obtain ⟨r, hslot⟩ := Option.ne_none_iff_exists'.mp hsome
    exact not_promise_fionbio h hslot ht

theorem kept_start (k : Kernel) : Kept (start k).fds (start k).asked where
  slots := rfl
  managed fd r hslot := by
    have hnone := slot_new fd
    change FdManager.new.slot fd = some r at hslot
    rw [hnone] at hslot
    cases hslot
  apart fd fd' r hslot _ := by
    have hnone := slot_new fd
    change FdManager.new.slot fd = some r at hslot
    rw [hnone] at hslot
    cases hslot

/-- **Non-blocking sockets.** For every sequence of hooked calls from any open files, the kernel
handing out numbers that are not in use: all the calls go through and both views of `O_NONBLOCK`
are right at every point of it if and only if no descriptor is 64 or more and no `FIONBIO` call
with zero is made on a managed open socket. -/
theorem nonblock_iff (k : Kernel) (calls : List Call)
    (hfresh : ∀ pre c s, pre ++ [c] <+: calls → exec next (start k) pre = some s → Fresh s c) :
    (∀ pre, pre <+: calls → ∃ s, exec next (start k) pre = some s ∧ Promise s.fds s.asked) ↔
      ∀ pre c s, pre ++ [c] <+: calls → exec next (start k) pre = some s → Harmless s c :=
  exec_iff (I := fun s => Kept s.fds s.asked) (fun _ h => h.promise)
    (fun _ _ h hf hh => next_kept h hf hh) (fun _ _ h _ hh _ ht => not_promise h hh ht)
    (kept_start k) hfresh

/-- A new socket, and `FIONBIO` with zero on it: the socket is blocking in the kernel. -/
theorem not_nonblock :
    ∃ s, exec next (start fun _ => none) [.socket (some 5) 0, .fionbio 5 0] = some s ∧
      s.fds.mgr.slot 5 = some 0 ∧ s.fds.kernel 5 = some ⟨true, 0⟩ ∧ ¬Promise s.fds s.asked := by
  have hfile : ∃ s, exec next (start fun _ => none) [.socket (some 5) 0, .fionbio 5 0] = some s ∧
      s.fds.mgr.slot 5 = some 0 ∧ s.fds.kernel 5 = some ⟨true, 0⟩ := ⟨_, rfl, rfl, by decide⟩
  obtain ⟨s, hs, hslot, hf⟩ := hfile
  refine ⟨s, hs, hslot, hf, ?_⟩
  intro hp
  exact absurd rfl (hp 5 0 _ hslot hf rfl).1

/-- A new socket, and `FIONBIO` with one on it. -/
theorem nonblock_iff_one :
    ∃ s, exec next (start fun _ => none) [.socket (some 5) 0, .fionbio 5 1] = some s ∧
      Promise s.fds s.asked := by
  have hcases : ∀ (pre : List Call) (c : Call), pre ++ [c] <+: [.socket (some 5) 0, .fionbio 5 1] →
      pre = [] ∧ c = .socket (some 5) 0 ∨ c = .fionbio 5 1 := by
    intro pre c hpre
    cases pre with
    | nil =>
      rw [List.nil_append, List.cons_prefix_cons] at hpre
      exact Or.inl ⟨rfl, hpre.1⟩
    | cons a pre =>
      rw [List.cons_append, List.cons_prefix_cons] at hpre
      have hmem : c ∈ [Call.fionbio 5 1] := hpre.2.subset (by simp)
      exact Or.inr (List.mem_singleton.mp hmem)
  refine (nonblock_iff (fun _ => none) [.socket (some 5) 0, .fionbio 5 1] ?_).mpr ?_ _
    List.prefix_rfl
  · intro pre c s hpre hs
    rcases hcases pre c hpre with ⟨rfl, rfl⟩ | rfl
    · cases hs
      exact rfl
    · exact trivial
  · intro pre c s hpre hs
    rcases hcases pre c hpre with ⟨rfl, rfl⟩ | rfl
    · exact (by decide : (5 : Nat) < 64)
    · exact fun hzero => absurd hzero (by decide)

end Descriptors

end Captain
