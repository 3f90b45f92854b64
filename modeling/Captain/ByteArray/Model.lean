import Captain.Chunks

/-!
# `ByteArray`: the chunked buffer of `captain/bytearray.cpp`

The nodes linked by `next` from `m_root` on are a list, the `Chain`; a `Node*` is the number of
a node in it, `none` being the null pointer, and `next` of node `i` is node `i + 1`. Every
access through a node pointer and every `memcpy` is checked: an access through a null pointer
is the fault `nullNode`, copying outside the block of a node is `outOfBlock`.

`size_t` values are natural numbers: every one of them is bounded by the bytes the array has
allocated, and the differences `m_capacity - m_position` and `m_size - m_position` never wrap
in a state that satisfies `ByteArray.Inv`.
-/

namespace Captain

open Chunks

/-- What can go wrong while an operation runs: the undefined behaviours of the source, the
exception it throws, and a loop that was given too few turns to finish. -/
inductive Fault
  | nullNode
  | outOfBlock
  | outOfRange (what : String)
  | turns
  deriving DecidableEq, Repr

/-- `ByteArray::Node`: a block `ptr` of `size` bytes. -/
structure Node where
  ptr : List UInt8
  deriving DecidableEq, Repr

/-- `Node::size`, set once by the constructor to the length of the block it allocates. -/
def Node.size (n : Node) : Nat := n.ptr.length

/-- `new Node(s)`. The block is not initialised: its bytes are whatever `junk` holds. -/
def Node.new (junk : Nat → UInt8) (s : Nat) : Node := ⟨(List.range s).map junk⟩

/-- The nodes from `m_root` on, in the order of `next`. -/
abbrev Chain := List Node

namespace Chain

/-- The node a pointer points to. -/
def deref (ns : Chain) : Option Nat → Except Fault Node
  | none => .error .nullNode
  | some i =>
    match ns[i]? with
    | none => .error .nullNode
    | some n => .ok n

/-- `cur->next`. -/
def next (ns : Chain) : Option Nat → Except Fault (Option Nat)
  | none => .error .nullNode
  | some i => .ok (if i + 1 < ns.length then some (i + 1) else none)

/-- `if(cur->size == pos) cur = cur->next;`, as it ends a transfer or a seek. -/
def pass (ns : Chain) (cur : Option Nat) (pos : Nat) : Except Fault (Option Nat) := do
  let n ← ns.deref cur
  if n.size = pos then ns.next cur else .ok cur

/-- `memcpy(cur->ptr + off, src, src.length)`. -/
def store (ns : Chain) (cur : Option Nat) (off : Nat) (src : List UInt8) : Except Fault Chain :=
  match cur with
  | none => .error .nullNode
  | some i =>
    match ns[i]? with
    | none => .error .nullNode
    | some n =>
      if off + src.length ≤ n.size then .ok (ns.set i ⟨overwrite n.ptr off src⟩)
      else .error .outOfBlock

/-- `memcpy(buf, cur->ptr + off, size)`: the bytes copied to `buf`. -/
def load (ns : Chain) (cur : Option Nat) (off size : Nat) : Except Fault (List UInt8) := do
  let n ← ns.deref cur
  if off + size ≤ n.size then .ok (slice n.ptr off size) else .error .outOfBlock

end Chain

structure ByteArray where
  m_baseSize : Nat
  m_position : Nat
  m_capacity : Nat
  m_size : Nat
  nodes : Chain
  m_cur : Option Nat
  deriving DecidableEq, Repr

namespace ByteArray

/-- `ByteArray::ByteArray(base_size)`. -/
def new (junk : Nat → UInt8) (base_size : Nat) : ByteArray where
  m_baseSize := base_size
  m_position := 0
  m_capacity := base_size
  m_size := 0
  nodes := [Node.new junk base_size]
  m_cur := some 0

def getReadSize (b : ByteArray) : Nat := b.m_size - b.m_position

def getCapacity (b : ByteArray) : Nat := b.m_capacity - b.m_position

/-- `ByteArray::addCapacity`. `junk i` is what the block of the `i`-th new node holds. -/
def addCapacity (b : ByteArray) (junk : Nat → Nat → UInt8) (size : Nat) : ByteArray :=
  if size = 0 then b
  else
    let old_cap := b.getCapacity
    if old_cap ≥ size then b
    else
      let size := size - old_cap
      let count := size / b.m_baseSize + if size % b.m_baseSize > old_cap then 1 else 0
      let first := if count = 0 then none else some b.nodes.length
      { b with
        nodes := b.nodes ++ (List.range count).map fun i => Node.new (junk i) b.m_baseSize
        m_capacity := b.m_capacity + count * b.m_baseSize
        m_cur := if old_cap = 0 then first else b.m_cur }

/-- The loop of `ByteArray::write`; `buf` is what is left to copy. Every turn but the last one
moves `m_cur` on, so a turn for each node is enough. -/
def writeLoop : Nat → ByteArray → Nat → Nat → List UInt8 → Except Fault ByteArray
  | 0, _, _, _, _ => .error .turns
  | turns + 1, b, npos, ncap, buf =>
    if buf.length = 0 then .ok b
    else if ncap ≥ buf.length then do
      let ns ← b.nodes.store b.m_cur npos buf
      let cur ← ns.pass b.m_cur (npos + buf.length)
      .ok { b with nodes := ns, m_cur := cur, m_position := b.m_position + buf.length }
    else do
      let ns ← b.nodes.store b.m_cur npos (buf.take ncap)
      let cur ← ns.next b.m_cur
      let node ← ns.deref cur
      writeLoop turns { b with nodes := ns, m_cur := cur, m_position := b.m_position + ncap }
        0 node.size (buf.drop ncap)

/-- `ByteArray::write`. -/
def write (b : ByteArray) (junk : Nat → Nat → UInt8) (buf : List UInt8) :
    Except Fault ByteArray :=
  if buf.length = 0 then .ok b
  else do
    let b := b.addCapacity junk buf.length
    let npos := b.m_position % b.m_baseSize
    let node ← b.nodes.deref b.m_cur
    let b ← writeLoop b.nodes.length b npos (node.size - npos) buf
    .ok (if b.m_position > b.m_size then { b with m_size := b.m_position } else b)

/-- The loop of `ByteArray::read`; `buf` is what has been copied so far. -/
def readLoop : Nat → ByteArray → Nat → Nat → Nat → List UInt8 →
    Except Fault (ByteArray × List UInt8)
  | 0, _, _, _, _, _ => .error .turns
  | turns + 1, b, npos, ncap, size, buf =>
    if size = 0 then .ok (b, buf)
    else if ncap ≥ size then do
      let bytes ← b.nodes.load b.m_cur npos size
      let cur ← b.nodes.pass b.m_cur (npos + size)
      .ok ({ b with m_cur := cur, m_position := b.m_position + size }, buf ++ bytes)
    else do
      let bytes ← b.nodes.load b.m_cur npos ncap
      let cur ← b.nodes.next b.m_cur
      let node ← b.nodes.deref cur
      readLoop turns { b with m_cur := cur, m_position := b.m_position + ncap }
        0 node.size (size - ncap) (buf ++ bytes)

/-- `ByteArray::read(buf, size)`: the array after it and the bytes copied to `buf`. -/
def read (b : ByteArray) (size : Nat) : Except Fault (ByteArray × List UInt8) :=
  if size > b.getReadSize then .error (.outOfRange "not enough len")
  else do
    let npos := b.m_position % b.m_baseSize
    let node ← b.nodes.deref b.m_cur
    readLoop b.nodes.length b npos (node.size - npos) size []

/-- The loop of the `read` that takes a position, with its own `cur`. -/
def readAtLoop (ns : Chain) : Nat → Option Nat → Nat → Nat → Nat → List UInt8 →
    Except Fault (List UInt8)
  | 0, _, _, _, _, _ => .error .turns
  | turns + 1, cur, npos, ncap, size, buf =>
    if size = 0 then .ok buf
    else if ncap ≥ size then do
      let bytes ← ns.load cur npos size
      let _ ← ns.pass cur (npos + size)
      .ok (buf ++ bytes)
    else do
      let bytes ← ns.load cur npos ncap
      let cur ← ns.next cur
      let node ← ns.deref cur
      readAtLoop ns turns cur 0 node.size (size - ncap) (buf ++ bytes)

/-- `ByteArray::read(buf, size, position)`, which is `const`: the bytes copied to `buf`. -/
def readAt (b : ByteArray) (size position : Nat) : Except Fault (List UInt8) :=
  if size > b.getReadSize then .error (.outOfRange "not enough len")
  else do
    let npos := position % b.m_baseSize
    let node ← b.nodes.deref b.m_cur
    readAtLoop b.nodes b.nodes.length b.m_cur npos (node.size - npos) size []

/-- The loop of `ByteArray::setPosition` that walks the chain from `cur`: the node it stops at
and what is left of `v` there. -/
def seekLoop (ns : Chain) : Nat → Option Nat → Nat → Except Fault (Option Nat × Nat)
  | 0, _, _ => .error .turns
  | turns + 1, cur, v => do
    let node ← ns.deref cur
    if v > node.size then do
      let cur ← ns.next cur
      seekLoop ns turns cur (v - node.size)
    else .ok (cur, v)

/-- `ByteArray::setPosition`. -/
def setPosition (b : ByteArray) (v : Nat) : Except Fault ByteArray :=
  if v > b.m_capacity then .error (.outOfRange "set_position out of range")
  else do
    let b := { b with m_position := v }
    let b := if b.m_position > b.m_size then { b with m_size := b.m_position } else b
    let (cur, v) ← seekLoop b.nodes b.nodes.length (some 0) v
    let cur ← b.nodes.pass cur v
    .ok { b with m_cur := cur }

/-- `ByteArray::clear`: every node but the root is freed. -/
def clear (b : ByteArray) : ByteArray :=
  { b with
    m_position := 0
    m_size := 0
    m_capacity := b.m_baseSize
    nodes := b.nodes.take 1
    m_cur := some 0 }

/-- `iovec`: a range of a block, `iov_base` given by its node and the offset in its block. -/
structure Iovec where
  node : Option Nat
  off : Nat
  iov_len : Nat
  deriving DecidableEq, Repr

/-- The loop of `getReadBuffers` and `getWriteBuffers`; `buffers` is what has been pushed. -/
def iovecLoop (ns : Chain) : Nat → Option Nat → Nat → Nat → Nat → List Iovec →
    Except Fault (List Iovec)
  | 0, _, _, _, _, _ => .error .turns
  | turns + 1, cur, npos, ncap, len, buffers =>
    if len = 0 then .ok buffers
    else if ncap ≥ len then do
      let _ ← ns.deref cur
      .ok (buffers ++ [⟨cur, npos, len⟩])
    else do
      let _ ← ns.deref cur
      let cur' ← ns.next cur
      let node ← ns.deref cur'
      iovecLoop ns turns cur' 0 node.size (len - ncap) (buffers ++ [⟨cur, npos, ncap⟩])

/-- `ByteArray::getReadBuffers(buffers, len)`, which is `const`: the segments it appends to
`buffers`, and what it returns. -/
def getReadBuffers (b : ByteArray) (len : Nat) : Except Fault (List Iovec × Nat) :=
  let len := if len > b.getReadSize then b.getReadSize else len
  if len = 0 then .ok ([], 0)
  else do
    let npos := b.m_position % b.m_baseSize
    let node ← b.nodes.deref b.m_cur
    let buffers ← iovecLoop b.nodes b.nodes.length b.m_cur npos (node.size - npos) len []
    .ok (buffers, len)

/-- `cur = cur->next`, `count` times. -/
def skipNodes (ns : Chain) : Nat → Option Nat → Except Fault (Option Nat)
  | 0, cur => .ok cur
  | count + 1, cur => do
    let cur ← ns.next cur
    skipNodes ns count cur

/-- `ByteArray::getReadBuffers(buffers, len, position)`, which is `const`. -/
def getReadBuffersAt (b : ByteArray) (len position : Nat) : Except Fault (List Iovec × Nat) :=
  let len := if len > b.getReadSize then b.getReadSize else len
  if len = 0 then .ok ([], 0)
  else do
    let npos := position % b.m_baseSize
    let cur ← skipNodes b.nodes (position / b.m_baseSize) (some 0)
    let node ← b.nodes.deref cur
    let buffers ← iovecLoop b.nodes b.nodes.length cur npos (node.size - npos) len []
    .ok (buffers, len)

/-- `ByteArray::getWriteBuffers(buffers, len)`: the array after it, the segments it appends to
`buffers`, and what it returns. -/
def getWriteBuffers (b : ByteArray) (junk : Nat → Nat → UInt8) (len : Nat) :
    Except Fault (ByteArray × List Iovec × Nat) :=
  if len = 0 then .ok (b, [], 0)
  else do
    let b := b.addCapacity junk len
    let npos := b.m_position % b.m_baseSize
    let node ← b.nodes.deref b.m_cur
    let buffers ← iovecLoop b.nodes b.nodes.length b.m_cur npos (node.size - npos) len []
    .ok (b, buffers, len)

end ByteArray

end Captain
