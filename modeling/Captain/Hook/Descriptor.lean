import Captain.FdManager
import Mathlib.Logic.Function.Basic

/-!
# The hooked calls on descriptors (`captain/hook.cpp`)

`socket`, `accept`, `fcntl`, `ioctl` and `close` stand in front of the system calls of the same
name (`socket_f` and so on) and keep the contexts of `FdManager` beside the files of the kernel.
An `int` is given by its bit pattern, so `-1` is the largest `UInt32`.

The kernel is the table of the open files, with what these calls see of a file: whether it is a
socket, and its status flags. `fcntl(F_SETFL)` changes the flags of `SETFL_MASK` only.
-/

namespace Captain

def O_NONBLOCK : UInt32 := 0o4000

/-- The status flags that `F_SETFL` can change: `O_APPEND`, `O_ASYNC`, `O_DIRECT`, `O_NOATIME` and
`O_NONBLOCK`. -/
def SETFL_MASK : UInt32 := 0o2000 ||| 0o20000 ||| 0o40000 ||| 0o1000000 ||| O_NONBLOCK

/-- An open file. -/
structure File where
  isSocket : Bool
  flags : UInt32
  deriving DecidableEq, Repr

/-- The open files by their descriptors. -/
abbrev Kernel := Nat → Option File

namespace Kernel

/-- `fstat`: whether the file is a socket, if it is open. -/
def fstat (k : Kernel) (fd : Nat) : Option Bool := (k fd).map File.isSocket

/-- `fcntl_f(fd, F_GETFL)`. -/
def getfl (k : Kernel) (fd : Nat) : UInt32 :=
  match k fd with
  | none => -1
  | some f => f.flags

/-- `fcntl_f(fd, F_SETFL, arg)`. -/
def setfl (k : Kernel) (fd : Nat) (arg : UInt32) : Kernel × UInt32 :=
  match k fd with
  | none => (k, -1)
  | some f =>
    (Function.update k fd
      (some { f with flags := arg &&& SETFL_MASK ||| f.flags &&& ~~~SETFL_MASK }), 0)

/-- `ioctl_f(d, FIONBIO, &arg)`. -/
def fionbio (k : Kernel) (d : Nat) (arg : UInt32) : Kernel × UInt32 :=
  match k d with
  | none => (k, -1)
  | some f =>
    (Function.update k d (some { f with
      flags := if arg ≠ 0 then f.flags ||| O_NONBLOCK else f.flags &&& ~~~O_NONBLOCK }), 0)

/-- `close_f(fd)`. -/
def close (k : Kernel) (fd : Nat) : Kernel × UInt32 :=
  match k fd with
  | none => (k, -1)
  | some _ => (Function.update k fd none, 0)

/-- What `FdCtx::init` does to the file of a new context. -/
def initCtx (k : Kernel) (fd : Nat) : Kernel :=
  if k.fstat fd = some true then
    let flags := k.getfl fd
    if flags &&& O_NONBLOCK = 0 then (k.setfl fd (flags ||| O_NONBLOCK)).1 else k
  else k

end Kernel

/-- The files of the kernel and the contexts beside them. -/
structure Descriptors where
  kernel : Kernel
  mgr : FdManager

namespace Descriptors

open FdManager

/-- `FdMgr::GetInstance()->get(fd, auto_create)`, with what the constructor of a new context does
to the file. -/
def get (s : Descriptors) (fd : Nat) (auto_create : Bool) :
    Except OutOfRange (Descriptors × Option Nat) := do
  match ← s.mgr.lookup fd auto_create with
  | some p => .ok (s, p)
  | none =>
    let (mgr, p) ← s.mgr.create fd (s.kernel.fstat fd)
    .ok (⟨s.kernel.initCtx fd, mgr⟩, p)

/-- What a pointer points to. -/
def deref (s : Descriptors) (ctx : Option Nat) : Option FdCtx := ctx.bind fun p => s.mgr.ctxs[p]?

/-- `ctx->setUserNonblock(v)`. -/
def setUserNonblock (s : Descriptors) (ctx : Option Nat) (v : Bool) : Descriptors :=
  match ctx with
  | none => s
  | some p =>
    { s with mgr := { s.mgr with
        ctxs := s.mgr.ctxs.modify p fun c => { c with m_userNonblock := v } } }

/-- The context that a call on the descriptor goes by: none if
`!ctx || ctx->isClose() || !ctx->isSocket()`, and the call is left to the kernel. -/
def hooked (s : Descriptors) (ctx : Option Nat) : Option FdCtx :=
  (s.deref ctx).filter fun c => !c.m_isClosed && c.m_isSocket

def fcntl_f_setfl (s : Descriptors) (fd : Nat) (arg : UInt32) : Descriptors × UInt32 :=
  let (k, rt) := s.kernel.setfl fd arg
  ({ s with kernel := k }, rt)

def ioctl_f_fionbio (s : Descriptors) (d : Nat) (arg : UInt32) : Descriptors × UInt32 :=
  let (k, rt) := s.kernel.fionbio d arg
  ({ s with kernel := k }, rt)

/-- What `socket` and `accept` do with the answer of the kernel, a new descriptor or -1. -/
def adopt (s : Descriptors) (answer : Option (Nat × File)) :
    Except OutOfRange (Descriptors × UInt32) :=
  match answer with
  | none => .ok (s, -1)
  | some (fd, f) => do
    let (s, _) ← get { s with kernel := Function.update s.kernel fd (some f) } fd true
    .ok (s, fd.toUInt32)

/-- `socket`: `socket_f` opens a socket with the status flags `flags` under the number `fd`, or
fails. -/
def socket (s : Descriptors) (fd : Option Nat) (flags : UInt32) :
    Except OutOfRange (Descriptors × UInt32) := s.adopt (fd.map fun fd => (fd, ⟨true, flags⟩))

/-- `accept`, once `do_io` has returned: `accept_f` has opened a socket with the status flags
`flags` under the number `fd`, or has failed. -/
def accept (s : Descriptors) (fd : Option Nat) (flags : UInt32) :
    Except OutOfRange (Descriptors × UInt32) := s.adopt (fd.map fun fd => (fd, ⟨true, flags⟩))

/-- `fcntl(fd, F_SETFL, arg)`. -/
def fcntl_setfl (s : Descriptors) (fd : Nat) (arg : UInt32) :
    Except OutOfRange (Descriptors × UInt32) := do
  let (s, ctx) ← s.get fd false
  match s.hooked ctx with
  | none => .ok (s.fcntl_f_setfl fd arg)
  | some c =>
    let s := s.setUserNonblock ctx (arg &&& O_NONBLOCK ≠ 0)
    let arg := if c.m_sysNonblock then arg ||| O_NONBLOCK else arg &&& ~~~O_NONBLOCK
    .ok (s.fcntl_f_setfl fd arg)

/-- `fcntl(fd, F_GETFL)`. -/
def fcntl_getfl (s : Descriptors) (fd : Nat) : Except OutOfRange (Descriptors × UInt32) := do
  let arg := s.kernel.getfl fd
  let (s, ctx) ← s.get fd false
  match s.hooked ctx with
  | none => .ok (s, arg)
  | some c => .ok (s, if c.m_userNonblock then arg ||| O_NONBLOCK else arg &&& ~~~O_NONBLOCK)

/-- `ioctl(d, FIONBIO, &arg)`. -/
def ioctl_fionbio (s : Descriptors) (d : Nat) (arg : UInt32) :
    Except OutOfRange (Descriptors × UInt32) := do
  let user_nonblock : Bool := arg ≠ 0
  let (s, ctx) ← s.get d false
  match s.hooked ctx with
  | none => .ok (s.ioctl_f_fionbio d arg)
  | some _ => .ok ((s.setUserNonblock ctx user_nonblock).ioctl_f_fionbio d arg)

/-- `close(fd)`; what `cancelAll` does to the events of `fd` is not part of this state. -/
def close (s : Descriptors) (fd : Nat) : Except OutOfRange (Descriptors × UInt32) := do
  let (s, ctx) ← s.get fd false
  let mgr ← if ctx.isSome then s.mgr.del fd else .ok s.mgr
  let (k, rt) := s.kernel.close fd
  .ok (⟨k, mgr⟩, rt)

end Descriptors

end Captain
