import Captain.ByteArray.Positional
import Captain.Stream

/-!
# Transfers between a socket and a `ByteArray`

`SocketStream::read` lets the kernel fill the segments of `getWriteBuffers` and moves the position
over what has come, `SocketStream::write` does the same for `getReadBuffers` and what has gone, and
`Stream::readFixSize` and `Stream::writeFixSize` repeat them until `length` bytes have been moved.

* `getReadBuffers` and `getWriteBuffers` give out the bytes from the position on.
* A transfer of `k` bytes is a `read` or a `write` of them, and transfers one after the other are
  one: `transfers`. The `write` is one on the array with the capacity that `getWriteBuffers` has
  added; without it `m_cur` may differ at the end of the old capacity.
-/

namespace Captain

open Chunks Transition Captain.ByteArray

/-- What `Socket::recv` comes to. -/
inductive Received
  | unconnected
  | failed
  | data (bytes : List UInt8)

/-- What `Socket::send` comes to; `moved k` takes the first `k` bytes of the segments. -/
inductive Sent
  | unconnected
  | failed
  | moved (k : Nat)

namespace SocketStream

/-- `SocketStream::read(ba, length)`: what it returns and the array after it. -/
def read (b : ByteArray) (junk : Nat → Nat → UInt8) (length : Nat) :
    Received → Except Fault (Int32 × ByteArray)
  | .unconnected => .ok (-1, b)
  | .failed => do
    let (b, _, _) ← b.getWriteBuffers junk length
    .ok (-1, b)
  | .data bytes => do
    let (b, iovs, _) ← b.getWriteBuffers junk length
    let nodes ← scatter b.nodes iovs bytes
    let b := { b with nodes }
    let rt := Int32.ofNat bytes.length
    if rt > 0 then do
      let b ← b.setPosition (b.m_position + rt.toInt.toNat)
      .ok (rt, b)
    else .ok (rt, b)

/-- `SocketStream::write(ba, length)`: what it returns, the array after it and what has gone. -/
def write (b : ByteArray) (length : Nat) : Sent → Except Fault (Int32 × ByteArray × List UInt8)
  | .unconnected => .ok (-1, b, [])
  | .failed => do
    let _ ← b.getReadBuffers length
    .ok (-1, b, [])
  | .moved k => do
    let (iovs, _) ← b.getReadBuffers length
    let bytes ← gather b.nodes iovs
    let rt := Int32.ofNat k
    if rt > 0 then do
      let b ← b.setPosition (b.m_position + rt.toInt.toNat)
      .ok (rt, b, bytes.take k)
    else .ok (rt, b, [])

/-- What `readFixSize` and `writeFixSize` return, if what the kernel does is enough. -/
def returned {σ : Type} : Option Int32 × σ → Except Fault (Int32 × σ)
  | (some rt, s) => .ok (rt, s)
  | (none, _) => .error .turns

/-- `Stream::readFixSize(ba, length)`, which `SocketStream` inherits. -/
def readFixSize (b : ByteArray) (junk : Nat → Nat → UInt8) (length : UInt64) (rs : List Received) :
    Except Fault (Int32 × ByteArray) := do
  returned (← Stream.repeatCalls (fun r left b => read b junk left r) length rs
    length.toInt64.toInt b)

/-- A `write` behind what has gone so far. -/
def writeMore (r : Sent) (left : Nat) (x : ByteArray × List UInt8) :
    Except Fault (Int32 × ByteArray × List UInt8) := do
  let (rt, b, bytes) ← write x.1 left r
  .ok (rt, b, x.2 ++ bytes)

/-- `Stream::writeFixSize(ba, length)`. -/
def writeFixSize (b : ByteArray) (length : UInt64) (rs : List Sent) :
    Except Fault (Int32 × ByteArray × List UInt8) := do
  returned (← Stream.repeatCalls writeMore length rs length.toInt64.toInt (b, []))

end SocketStream

/-! ## Arrays with the same bytes -/

/-- Blocks of one size are known by their bytes. -/
theorem Chain.Uniform.eq_of_bytes {ns ns' : Chain} {B : Nat} (h : ns.Uniform B)
    (h' : ns'.Uniform B) (hbytes : ns.bytes = ns'.bytes) : ns = ns' := by
  have hlength : ns.length = ns'.length := by
    apply Nat.eq_of_mul_eq_mul_left h.base_pos
    rw [← h.length_bytes, ← h'.length_bytes, hbytes]
  induction ns generalizing ns' with
  | nil => exact (List.length_eq_zero_iff.mp hlength.symm).symm
  | cons n ns ih =>
    cases ns' with
    | nil => cases hlength
    | cons n' ns' =>
      have hn : n.ptr.length = B := h.blocks n List.mem_cons_self
      have hn' : n'.ptr.length = B := h'.blocks n' List.mem_cons_self
      simp only [Chain.bytes, List.map_cons, List.flatten_cons] at hbytes
      obtain ⟨hptr, hrest⟩ := List.append_inj hbytes (hn.trans hn'.symm)
      have hns := ih ⟨h.base_pos, fun m hm => h.blocks m (List.mem_cons_of_mem _ hm)⟩
        ⟨h.base_pos, fun m hm => h'.blocks m (List.mem_cons_of_mem _ hm)⟩ hrest
        (Nat.succ.inj hlength)
      cases n
      cases n'
      cases hptr
      rw [hns]

namespace ByteArray

theorem Inv.ext {b c : ByteArray} (h : Inv b) (h' : Inv c) (hbase : b.m_baseSize = c.m_baseSize)
    (hpos : b.m_position = c.m_position) (hsize : b.m_size = c.m_size)
    (hbytes : b.nodes.bytes = c.nodes.bytes) : b = c := by
  have hnodes : b.nodes = c.nodes := h.uniform.eq_of_bytes (hbase ▸ h'.uniform) hbytes
  have hcap : b.m_capacity = c.m_capacity := by rw [h.capacity, h'.capacity, hbase, hnodes]
  have hcur : b.m_cur = c.m_cur := by rw [h.cur, h'.cur, hpos, hcap, hbase]
  cases b
  cases c
  cases hbase
  cases hpos
  cases hsize
  cases hnodes
  cases hcap
  cases hcur
  rfl

/-- There is room already. -/
theorem addCapacity_of_le {b : ByteArray} {n : Nat} (hn : n ≤ b.getCapacity)
    (junk : Nat → Nat → UInt8) : b.addCapacity junk n = b := by
  rw [addCapacity]
  split
  · rfl
  · exact if_pos hn

/-! ## Single transfers -/

/-- A positive result of `recv` or `send`. -/
theorem ofNat_pos {k : Nat} (hk : 1 ≤ k) (hint : k < 2 ^ 31) :
    Int32.ofNat k > 0 ∧ (Int32.ofNat k).toInt.toNat = k := by
  have htoInt : (Int32.ofNat k).toInt = k := Int32.toInt_ofNat_of_lt hint
  have hzero : (0 : Int32).toInt = 0 := rfl
  refine ⟨Int32.lt_iff_toInt_lt.mpr ?_, ?_⟩
  · rw [htoInt, hzero]
    omega
  · rw [htoInt, Int.toNat_natCast]

/-- The loop after a positive result. -/
theorem repeatCalls_cons {ρ σ : Type} {call : ρ → Nat → σ → Except Fault (Int32 × σ)} {r : ρ}
    {s s' : σ} {k left : Nat} (hk : 1 ≤ k) (hint : k < 2 ^ 31)
    (hcall : call r (k + left) s = .ok (.ofNat k, s')) (length : UInt64) (rs : List ρ) :
    Stream.repeatCalls call length (r :: rs) ((k + left : Nat) : Int) s =
      Stream.repeatCalls call length rs (left : Int) s' := by
  obtain ⟨hpos, -⟩ := ofNat_pos hk hint
  have hleft : ((k + left : Nat) : Int) - (Int32.ofNat k).toInt = (left : Int) := by
    rw [Int32.toInt_ofNat_of_lt hint]
    omega
  rw [Stream.repeatCalls, if_pos (by omega), Int.toNat_natCast, hcall]
  simp only [bind, Except.bind]
  rw [if_neg (Int32.not_le.mpr hpos), hleft]

namespace Inv

variable {b : ByteArray} (h : Inv b)
include h

/-- The bytes come in as by `write`, in the capacity that there is. -/
theorem recv_data (junk : Nat → Nat → UInt8) {len : Nat} (hroom : len ≤ b.getCapacity)
    {data : List UInt8} (hdata : 1 ≤ data.length) (hle : data.length ≤ len)
    (hint : data.length < 2 ^ 31) :
    ∃ b', SocketStream.read b junk len (.data data) = .ok (.ofNat data.length, b') ∧
      b.write junk data = .ok b' ∧ Inv b' ∧ b'.m_position = b.m_position + data.length ∧
      b'.m_capacity = b.m_capacity := by
  have hsame := addCapacity_of_le hroom junk
  have hsame' := addCapacity_of_le (Nat.le_trans hle hroom) junk
  obtain ⟨iovs, hiovs, htiles⟩ := h.getWriteBuffers_fits junk (by omega : 1 ≤ len)
    (by rw [hsame]; exact hroom)
  rw [hsame] at hiovs htiles
  obtain ⟨ns, hscatter, hns, hu, hbytes⟩ := scatter_tiles htiles h.uniform rfl hle
  have hroot : ns ≠ [] := by
    apply List.ne_nil_of_length_pos
    rw [hns]
    exact h.root_lt
  have h₁ : Inv { b with nodes := ns } :=
    ⟨hu, hroot, by rw [hns, h.capacity], h.position_le, h.size_le, h.cur⟩
  have hend : b.m_position + data.length ≤ b.m_capacity := by
    unfold getCapacity at hroom
    omega
  obtain ⟨b₁, hseek, h₁', hbase₁, hpos₁, hsize₁, hnodes₁⟩ := h₁.setPosition_spec hend
  obtain ⟨b₂, hwrite, h₂, hbase₂, hpos₂, hsize₂, hbytes₂⟩ := h.write_room junk hdata
    (by rw [hsame']; omega)
  have heq : b₁ = b₂ := by
    refine h₁'.ext h₂ (hbase₁.trans hbase₂.symm) (hpos₁.trans hpos₂.symm)
      (hsize₁.trans hsize₂.symm) ?_
    rw [hnodes₁, hbytes₂, hsame']
    exact hbytes
  subst heq
  refine ⟨b₁, ?_, hwrite, h₁', hpos₁, ?_⟩
  · obtain ⟨hpos, htoNat⟩ := ofNat_pos hdata hint
    simp only [SocketStream.read, bind, Except.bind, hiovs, hscatter, htoNat]
    rw [hseek]
    exact if_pos hpos
  · rw [h₁'.capacity, hnodes₁, hbase₁, h.capacity]
    dsimp only
    rw [hns]

/-- The bytes go out as by `read`. -/
theorem send_moved {len k : Nat} (hk : 1 ≤ k) (hle : k ≤ min len b.getReadSize)
    (hint : k < 2 ^ 31) :
    ∃ b' out, SocketStream.write b len (.moved k) = .ok (.ofNat k, b', out) ∧
      b.read k = .ok (b', out) ∧ Inv b' ∧ b'.getReadSize = b.getReadSize - k := by
  obtain ⟨iovs, hiovs, htiles⟩ := h.getReadBuffers_spec len
  have hgather := gather_tiles h.uniform htiles
  have hcur : k ≤ b.getReadSize := by omega
  have hend : b.m_position + k ≤ b.m_capacity := by
    have hsize := h.size_le
    unfold getReadSize at hcur
    omega
  obtain ⟨b₁, hseek, h₁, hbase₁, hpos₁, hsize₁, hnodes₁⟩ := h.setPosition_spec hend
  obtain ⟨b₂, hread, h₂, hbase₂, hpos₂, hsize₂, hnodes₂⟩ := h.read_spec hk hcur
  have hmax : max b.m_size (b.m_position + k) = b.m_size := by
    unfold getReadSize at hcur
    omega
  have heq : b₁ = b₂ := h₁.ext h₂ (hbase₁.trans hbase₂.symm) (hpos₁.trans hpos₂.symm)
    (by rw [hsize₁, hsize₂, hmax]) (by rw [hnodes₁, hnodes₂])
  subst heq
  have htake : (slice b.nodes.bytes b.m_position (min len b.getReadSize)).take k =
      slice b.nodes.bytes b.m_position k := by
    rw [slice, slice, List.take_take, Nat.min_eq_left hle]
  refine ⟨b₁, _, ?_, hread, h₁, by unfold getReadSize; omega⟩
  obtain ⟨hpos, htoNat⟩ := ofNat_pos hk hint
  simp only [SocketStream.write, bind, Except.bind, hiovs, hgather, htoNat]
  rw [hseek, htake]
  exact if_pos hpos

/-! ## One transfer after another -/

theorem write_append {junk : Nat → Nat → UInt8} {d e : List UInt8}
    (hroom : (d ++ e).length ≤ b.getCapacity) :
    b.write junk (d ++ e) = (b.write junk d).bind fun c => c.write junk e := by
  rcases Nat.eq_zero_or_pos d.length with hd | hd
  · rw [List.length_eq_zero_iff.mp hd, List.nil_append, write_nil]
    rfl
  rcases Nat.eq_zero_or_pos e.length with he | he
  · rw [List.length_eq_zero_iff.mp he, List.append_nil]
    cases b.write junk d with
    | error f => rfl
    | ok c => exact (c.write_nil junk).symm
  rw [List.length_append] at hroom
  have hsame := addCapacity_of_le (b := b) (n := d.length) (by omega) junk
  have hsame' := addCapacity_of_le (b := b) (n := (d ++ e).length)
    (by rw [List.length_append]; omega) junk
  obtain ⟨c, hc, h₁, hbase₁, hpos₁, hsize₁, hbytes₁⟩ := h.write_room junk hd
    (by rw [hsame]; omega)
  have hcap : c.m_capacity = b.m_capacity := by
    rw [← h₁.length_bytes, ← h.length_bytes, hbytes₁, hsame, length_overwrite]
    rw [h.length_bytes]
    unfold getCapacity at hroom
    omega
  have hroom₁ : e.length ≤ c.getCapacity := by
    unfold getCapacity at hroom ⊢
    omega
  have hsame₁ := addCapacity_of_le hroom₁ junk
  obtain ⟨b₁, hb₁, h₂, hbase₂, hpos₂, hsize₂, hbytes₂⟩ := h₁.write_room junk he
    (by rw [hsame₁]; exact hroom₁)
  obtain ⟨b₂, hb₂, h₃, hbase₃, hpos₃, hsize₃, hbytes₃⟩ := h.write_room junk
    (by rw [List.length_append]; omega : 1 ≤ (d ++ e).length)
    (by rw [hsame', List.length_append]; omega)
  have heq : b₁ = b₂ := by
    rw [List.length_append] at hpos₃ hsize₃
    refine h₂.ext h₃ (by omega) (by omega) (by omega) ?_
    rw [hbytes₂, hsame₁, hbytes₁, hsame, hpos₁, hbytes₃, hsame', overwrite_overwrite]
    rw [h.length_bytes]
    unfold getCapacity at hroom
    omega
  rw [hb₂, hc, Except.bind, hb₁, heq]

/-- Data that come in parts come in as one. -/
theorem repeat_data (junk : Nat → Nat → UInt8) (length : UInt64) (datas : List (List UInt8))
    (hdatas : ∀ d ∈ datas, d ≠ [] ∧ d.length < 2 ^ 31)
    (hroom : datas.flatten.length ≤ b.getCapacity) :
    Stream.repeatCalls (fun r left b => SocketStream.read b junk left r) length
        (datas.map .data) (datas.flatten.length : Int) b =
      (b.write junk datas.flatten).map fun b' => (some length.toUInt32.toInt32, b') := by
  induction datas generalizing b with
  | nil =>
    rw [List.flatten_nil, write_nil]
    rfl
  | cons d ds ih =>
    obtain ⟨hne, hint⟩ := hdatas d List.mem_cons_self
    have hd := List.length_pos_iff.mpr hne
    rw [List.flatten_cons] at hroom ⊢
    rw [h.write_append hroom]
    rw [List.length_append] at hroom ⊢
    obtain ⟨c, hrecv, hwrite, h₁, hpos, hcap⟩ := h.recv_data junk hroom hd (by omega) hint
    have hnext := ih h₁ (fun e he => hdatas e (List.mem_cons_of_mem _ he)) (by
      unfold getCapacity at hroom ⊢
      omega)
    rw [List.map_cons, repeatCalls_cons hd hint hrecv, hnext, hwrite]
    rfl

theorem read_add {m n : Nat} (hm : 1 ≤ m) (hn : 1 ≤ n) (hle : m + n ≤ b.getReadSize) :
    b.read (m + n) = (b.read m).bind fun c => (c.1.read n).map fun r => (r.1, c.2 ++ r.2) := by
  obtain ⟨c, hc, h₁, hbase₁, hpos₁, hsize₁, hnodes₁⟩ := h.read_spec hm (by omega)
  have hle₁ : n ≤ c.getReadSize := by
    unfold getReadSize at hle ⊢
    omega
  obtain ⟨b₁, hb₁, h₂, hbase₂, hpos₂, hsize₂, hnodes₂⟩ := h₁.read_spec hn hle₁
  obtain ⟨b₂, hb₂, h₃, hbase₃, hpos₃, hsize₃, hnodes₃⟩ :=
    h.read_spec (n := m + n) (by omega) hle
  have heq : b₁ = b₂ :=
    h₂.ext h₃ (by omega) (by omega) (by omega) (by rw [hnodes₂, hnodes₁, hnodes₃])
  rw [hb₂, hc, Except.bind]
  dsimp only
  rw [hb₁, heq, hnodes₁, hpos₁, slice_add]
  rfl

/-- Data that go in parts go as one. -/
theorem repeat_moved (length : UInt64) (ks : List Nat) (hks : ∀ k ∈ ks, 1 ≤ k ∧ k < 2 ^ 31)
    (hne : ks ≠ []) (hle : ks.sum ≤ b.getReadSize) (out : List UInt8) :
    Stream.repeatCalls SocketStream.writeMore length (ks.map .moved) (ks.sum : Int) (b, out) =
      (b.read ks.sum).map fun r => (some length.toUInt32.toInt32, r.1, out ++ r.2) := by
  induction ks generalizing b out with
  | nil => exact absurd rfl hne
  | cons k ks ih =>
    obtain ⟨hk, hint⟩ := hks k List.mem_cons_self
    rw [List.sum_cons] at hle ⊢
    obtain ⟨c, bytes, hsend, hread, h₁, hrest⟩ :=
      h.send_moved hk (by omega : k ≤ min (k + ks.sum) b.getReadSize) hint
    have hmore : SocketStream.writeMore (.moved k) (k + ks.sum) (b, out) =
        .ok (.ofNat k, c, out ++ bytes) := by
      simp only [SocketStream.writeMore, hsend, bind, Except.bind]
    rw [List.map_cons, repeatCalls_cons hk hint hmore]
    by_cases hnil : ks = []
    · subst hnil
      rw [List.sum_nil, Nat.add_zero, hread]
      rfl
    · have hks' : ∀ k ∈ ks, 1 ≤ k ∧ k < 2 ^ 31 := fun k hk => hks k (List.mem_cons_of_mem _ hk)
      have hsum : 1 ≤ ks.sum := by
        obtain ⟨k', ks', rfl⟩ := List.exists_cons_of_ne_nil hnil
        have := hks' k' List.mem_cons_self
        rw [List.sum_cons]
        omega
      rw [ih h₁ hks' hnil (by omega), h.read_add hk hsum hle, hread, Except.bind]
      dsimp only
      cases c.read ks.sum with
      | error e => rfl
      | ok r => simp only [Except.map, List.append_assoc]

end Inv

/-! ## What the segments are for -/

/-- Sending `len` bytes from the position on. -/
structure Drains (b : ByteArray) (len : Nat) : Prop where
  segments : ∃ vs, b.getReadBuffers len = .ok (vs, min len b.getReadSize) ∧
    Tiles b.nodes.length b.m_baseSize vs b.m_position (min len b.getReadSize)
  transfer : ∀ k ≤ min len b.getReadSize, k < 2 ^ 31 → 1 ≤ k ∨ b.m_position < b.m_capacity →
    ∃ b' out, SocketStream.write b len (.moved k) = .ok (.ofNat k, b', out) ∧
      b.read k = .ok (b', out)
  fixSize : ∀ ks : List Nat, (∀ k ∈ ks, 1 ≤ k ∧ k < 2 ^ 31) → ks.sum = len →
    len ≤ b.getReadSize → 1 ≤ len → len < 2 ^ 63 →
    ∃ b' out, SocketStream.writeFixSize b (.ofNat len) (ks.map .moved) =
        .ok (.ofNat len, b', out) ∧
      (len < 2 ^ 31 → SocketStream.writeFixSize b (.ofNat len) [.moved len] =
        .ok (.ofNat len, b', out)) ∧
      b.read len = .ok (b', out)

/-- Receiving `len` bytes at the position. The array that `getWriteBuffers` leaves, with the
capacity that it adds, is `b.addCapacity junk len`. -/
structure Fills (b : ByteArray) (junk : Nat → Nat → UInt8) (len : Nat) : Prop where
  segments : ∃ vs, b.getWriteBuffers junk len = .ok (b.addCapacity junk len, vs, len) ∧
    Tiles (b.addCapacity junk len).nodes.length b.m_baseSize vs b.m_position len
  position : (b.addCapacity junk len).m_position = b.m_position
  size : (b.addCapacity junk len).m_size = b.m_size
  transfer : ∀ data : List UInt8, data.length ≤ len → data.length < 2 ^ 31 →
    ∃ b', SocketStream.read b junk len (.data data) = .ok (.ofNat data.length, b') ∧
      (b.addCapacity junk len).write junk data = .ok b' ∧
      ∀ b'', b.write junk data = .ok b'' →
        b''.m_position = b'.m_position ∧ b''.m_size = b'.m_size ∧
        b''.nodes.bytes.take b''.m_size = b'.nodes.bytes.take b'.m_size ∧
        (b''.m_position ≠ b''.m_capacity → b''.m_cur = b'.m_cur)
  fixSize : ∀ datas : List (List UInt8), (∀ d ∈ datas, d ≠ [] ∧ d.length < 2 ^ 31) →
    datas.flatten.length = len → len < 2 ^ 63 →
    ∃ b', SocketStream.readFixSize b junk (.ofNat len) (datas.map .data) = .ok (.ofNat len, b') ∧
      (len < 2 ^ 31 → SocketStream.readFixSize b junk (.ofNat len) [.data datas.flatten] =
        .ok (.ofNat len, b')) ∧
      (b.addCapacity junk len).write junk datas.flatten = .ok b'

namespace Inv

variable {b : ByteArray} (h : Inv b)
include h

omit h in
/-- A length that `int64_t` holds, and as an `int`. -/
theorem ofNat_length {len : Nat} (hlen : len < 2 ^ 63) :
    (UInt64.ofNat len).toInt64.toInt = len ∧
      (UInt64.ofNat len).toUInt32.toInt32 = Int32.ofNat len := by
  have hnat : (UInt64.ofNat len).toNat = len := UInt64.toNat_ofNat_of_lt' (by
    rw [UInt64.size]
    omega)
  refine ⟨?_, ?_⟩
  · rw [Stream.toInt_length, hnat, if_pos hlen]
  · apply Int32.toBitVec_inj.mp
    apply BitVec.eq_of_toNat_eq
    have hleft : ((UInt64.ofNat len).toUInt32.toInt32.toBitVec).toNat =
        (UInt64.ofNat len).toUInt32.toNat := rfl
    have hright : (Int32.ofNat len).toBitVec.toNat = len % 2 ^ 32 := BitVec.toNat_ofNat ..
    rw [hleft, hright, UInt64.toNat_toUInt32, hnat]

theorem writeFixSize_moved {len : Nat} (hlen : len < 2 ^ 63) {ks : List Nat}
    (hks : ∀ k ∈ ks, 1 ≤ k ∧ k < 2 ^ 31) (hne : ks ≠ []) (hsum : ks.sum = len)
    (hle : len ≤ b.getReadSize) :
    SocketStream.writeFixSize b (.ofNat len) (ks.map .moved) =
      (b.read len).map fun r => (.ofNat len, r.1, r.2) := by
  subst hsum
  obtain ⟨hint64, hint⟩ := ofNat_length hlen
  unfold SocketStream.writeFixSize
  rw [hint64, h.repeat_moved _ ks hks hne hle, hint]
  cases b.read ks.sum <;> rfl

theorem drains (len : Nat) : Drains b len where
  segments := h.getReadBuffers_spec len
  transfer k hle hint hstart := by
    rcases Nat.eq_zero_or_pos k with rfl | hk
    · obtain ⟨iovs, hiovs, htiles⟩ := h.getReadBuffers_spec len
      refine ⟨b, [], ?_, ?_⟩
      · simp only [SocketStream.write, bind, Except.bind, hiovs, gather_tiles h.uniform htiles]
        rfl
      · rw [h.read_zero, if_neg (by omega)]
    · obtain ⟨b', out, hsend, hread, -⟩ := h.send_moved hk hle hint
      exact ⟨b', out, hsend, hread⟩
  fixSize ks hks hsum hle hlen hlt := by
    have hne : ks ≠ [] := by
      rintro rfl
      rw [← hsum] at hlen
      exact absurd hlen (by decide)
    obtain ⟨b', hread, -⟩ := h.read_spec hlen hle
    have hparts := h.writeFixSize_moved hlt hks hne hsum hle
    rw [hread] at hparts
    refine ⟨b', _, hparts, fun hint => ?_, hread⟩
    have hsingle : ∀ k ∈ [len], 1 ≤ k ∧ k < 2 ^ 31 :=
      fun k hk => List.mem_singleton.mp hk ▸ ⟨hlen, hint⟩
    have hone := h.writeFixSize_moved hlt hsingle (by simp) List.sum_singleton hle
    rwa [hread] at hone

/-- Two writes of the same data, with more and with less capacity. -/
theorem write_agree {junk junk' : Nat → Nat → UInt8} {data : List UInt8} {len : Nat}
    (hdata : 1 ≤ data.length) (hle : data.length ≤ len)
    (hroom : len ≤ (b.addCapacity junk len).getCapacity) {b' b'' : ByteArray}
    (hmore : (b.addCapacity junk len).write junk data = .ok b')
    (hless : b.write junk' data = .ok b'') :
    b''.m_position = b'.m_position ∧ b''.m_size = b'.m_size ∧
      b''.nodes.bytes.take b''.m_size = b'.nodes.bytes.take b'.m_size ∧
      (b''.m_position ≠ b''.m_capacity → b''.m_cur = b'.m_cur) := by
  have hroom' : data.length ≤ (b.addCapacity junk' data.length).getCapacity := by
    apply Classical.byContradiction
    intro hshort
    rw [h.write_short hdata hshort] at hless
    cases hless
  have hsame := addCapacity_of_le (Nat.le_trans hle hroom) junk
  obtain ⟨h₁, hbase₁, hpos₁, hsize₁, fresh₁, hfresh₁⟩ := h.addCapacity_spec junk len
  obtain ⟨h₂, hbase₂, hpos₂, hsize₂, fresh₂, hfresh₂⟩ := h.addCapacity_spec junk' data.length
  obtain ⟨c, hrun, h', hbase', hpos', hsize', hbytes'⟩ := h₁.write_room junk hdata
    (by rw [hsame]; omega)
  rw [hmore] at hrun
  cases hrun
  obtain ⟨c, hrun, h'', hbase'', hpos'', hsize'', hbytes''⟩ := h.write_room junk' hdata hroom'
  rw [hless] at hrun
  cases hrun
  have hposition : b''.m_position = b'.m_position := by omega
  have hle' := h.position_le
  have hlength : b.m_size ≤ b.nodes.bytes.length := h.length_bytes ▸ h.size_le
  refine ⟨hposition, by omega, ?_, fun hend => ?_⟩
  · rw [hbytes', hbytes'', hsame, hfresh₁, hfresh₂, hpos₁, show b''.m_size = b'.m_size by omega,
      take_overwrite_append (by omega) (by omega), take_overwrite_append (by omega) (by omega)]
  · -- as many bytes are added for as many data
    have hroom₁ := h.capacity_addCapacity junk len
    have hroom₂ := h.capacity_addCapacity junk' data.length
    have hcap' : b'.m_capacity = (b.addCapacity junk len).m_capacity := by
      rw [← h'.length_bytes, hbytes', hsame, length_overwrite, h₁.length_bytes]
      rw [h₁.length_bytes]
      unfold getCapacity at hroom
      omega
    have hcap'' : b''.m_capacity = (b.addCapacity junk' data.length).m_capacity := by
      rw [← h''.length_bytes, hbytes'', length_overwrite, h₂.length_bytes]
      rw [h₂.length_bytes]
      unfold getCapacity at hroom'
      omega
    have hend' : b'.m_position ≠ b'.m_capacity := by
      intro heq
      have hlen : data.length = len := by
        unfold getCapacity at hroom
        omega
      have hcount : b.count data.length = b.count len := by rw [hlen]
      rw [hcount] at hroom₂
      unfold getCapacity at *
      omega
    rw [h''.cur, h'.cur, if_neg hend, if_neg hend', hposition, hbase'', hbase', hbase₁]

omit h in
/-- The first call adds the capacity, and it is there for what comes after. -/
theorem getWriteBuffers_addCapacity {junk : Nat → Nat → UInt8} {len : Nat}
    (hroom : len ≤ (b.addCapacity junk len).getCapacity) :
    (b.addCapacity junk len).getWriteBuffers junk len = b.getWriteBuffers junk len := by
  unfold getWriteBuffers
  split
  · rename_i hzero
    rw [hzero]
    rfl
  · rw [addCapacity_of_le hroom junk]

omit h in
theorem read_addCapacity {junk : Nat → Nat → UInt8} {len : Nat}
    (hroom : len ≤ (b.addCapacity junk len).getCapacity) (data : List UInt8) :
    SocketStream.read b junk len (.data data) =
      SocketStream.read (b.addCapacity junk len) junk len (.data data) := by
  simp only [SocketStream.read, getWriteBuffers_addCapacity hroom]

/-- Nothing is received. -/
theorem recv_nil {junk : Nat → Nat → UInt8} {len : Nat} {vs : List Iovec}
    (hvs : b.getWriteBuffers junk len = .ok (b.addCapacity junk len, vs, len)) :
    SocketStream.read b junk len (.data []) = .ok (0, b.addCapacity junk len) ∧
      b.m_position = (b.addCapacity junk len).m_position ∧
      b.m_size = (b.addCapacity junk len).m_size ∧
      b.nodes.bytes.take b.m_size =
        (b.addCapacity junk len).nodes.bytes.take (b.addCapacity junk len).m_size ∧
      (b.m_position ≠ b.m_capacity → b.m_cur = (b.addCapacity junk len).m_cur) := by
  obtain ⟨h₁, hbase₁, hpos₁, hsize₁, fresh, hfresh⟩ := h.addCapacity_spec junk len
  have hscatter : scatter (b.addCapacity junk len).nodes vs [] =
      .ok (b.addCapacity junk len).nodes := by cases vs <;> rfl
  have hsize := h.size_le
  refine ⟨?_, hpos₁.symm, hsize₁.symm, ?_, fun hend => ?_⟩
  · simp only [SocketStream.read, bind, Except.bind, hvs, hscatter]
    rfl
  · rw [hfresh, hsize₁, List.take_append_of_le_length (h.length_bytes ▸ hsize)]
  · have hmore : b.m_capacity ≤ (b.addCapacity junk len).m_capacity := by
      rw [← h.length_bytes, ← h₁.length_bytes, hfresh, List.length_append]
      omega
    have hle := h.position_le
    rw [h.cur, h₁.cur, if_neg hend, if_neg (by omega), hpos₁, hbase₁]

/-- `readFixSize` of data that come in parts writes them. -/
theorem readFixSize_data {junk : Nat → Nat → UInt8} {len : Nat} (hlt : len < 2 ^ 63)
    (hroom : len ≤ (b.addCapacity junk len).getCapacity) (datas : List (List UInt8))
    (hdatas : ∀ d ∈ datas, d ≠ [] ∧ d.length < 2 ^ 31) (hlen : datas.flatten.length = len) :
    SocketStream.readFixSize b junk (.ofNat len) (datas.map .data) =
      if len = 0 then .ok (0, b)
      else ((b.addCapacity junk len).write junk datas.flatten).map fun b' => (.ofNat len, b') := by
  obtain ⟨hint64, hint⟩ := ofNat_length hlt
  have hparts := (h.addCapacity_spec junk len).1.repeat_data junk (.ofNat len) datas hdatas
    (by omega)
  rw [hlen, hint] at hparts
  unfold SocketStream.readFixSize
  rw [hint64]
  cases datas with
  | nil =>
    obtain rfl : len = 0 := hlen.symm
    rfl
  | cons d ds =>
    have hd := List.length_pos_iff.mpr (hdatas d List.mem_cons_self).1
    have hpos : 0 < len := by
      rw [← hlen, List.flatten_cons, List.length_append]
      omega
    have hfirst : Stream.repeatCalls (fun r left b => SocketStream.read b junk left r) (.ofNat len)
        ((d :: ds).map .data) (len : Int) b =
          Stream.repeatCalls (fun r left b => SocketStream.read b junk left r) (.ofNat len)
            ((d :: ds).map .data) (len : Int) (b.addCapacity junk len) := by
      have hleft : (len : Int) > 0 := by omega
      rw [List.map_cons, Stream.repeatCalls, Stream.repeatCalls, Int.toNat_natCast,
        read_addCapacity hroom, if_pos hleft, if_pos hleft]
    rw [hfirst, hparts, if_neg (Nat.pos_iff_ne_zero.mp hpos)]
    cases (b.addCapacity junk len).write junk (d :: ds).flatten <;> rfl

theorem fills {junk : Nat → Nat → UInt8} {len : Nat}
    (hroom : len ≤ (b.addCapacity junk len).getCapacity) : Fills b junk len := by
  obtain ⟨h₁, hbase₁, hpos₁, hsize₁, -⟩ := h.addCapacity_spec junk len
  have hsame := addCapacity_of_le hroom junk
  have hsegments : ∃ vs, b.getWriteBuffers junk len = .ok (b.addCapacity junk len, vs, len) ∧
      Tiles (b.addCapacity junk len).nodes.length b.m_baseSize vs b.m_position len := by
    rcases Nat.eq_zero_or_pos len with rfl | hlen
    · exact ⟨[], rfl, .nil _⟩
    · exact h.getWriteBuffers_fits junk hlen hroom
  refine ⟨hsegments, hpos₁, hsize₁, fun data hle hint => ?_, fun datas hdatas hlen hlt => ?_⟩
  · rcases Nat.eq_zero_or_pos data.length with hzero | hdata
    · obtain rfl : data = [] := List.length_eq_zero_iff.mp hzero
      obtain ⟨vs, hvs, -⟩ := hsegments
      obtain ⟨hrecv, hagree⟩ := h.recv_nil hvs
      refine ⟨b.addCapacity junk len, hrecv, write_nil _ _, fun b'' hwrite => ?_⟩
      rw [write_nil] at hwrite
      cases hwrite
      exact hagree
    · rw [read_addCapacity hroom]
      obtain ⟨b', hrecv, hwrite, -⟩ := h₁.recv_data junk hroom hdata hle hint
      exact ⟨b', hrecv, hwrite, fun b'' hless => h.write_agree hdata hle hroom hwrite hless⟩
  · have hparts := h.readFixSize_data hlt hroom datas hdatas hlen
    rcases Nat.eq_zero_or_pos len with hzero | hpos
    · subst hzero
      have hnil : datas.flatten = [] := List.length_eq_zero_iff.mp hlen
      rw [if_pos rfl] at hparts
      exact ⟨b, hparts, fun _ => rfl, by rw [hnil, write_nil]; rfl⟩
    · obtain ⟨b', hwrite, -⟩ := h₁.write_room junk (by omega : 1 ≤ datas.flatten.length) (by
        rw [hlen, hsame]
        exact hroom)
      have hne : datas.flatten ≠ [] := List.ne_nil_of_length_pos (by omega)
      rw [if_neg (Nat.pos_iff_ne_zero.mp hpos), hwrite] at hparts
      refine ⟨b', hparts, fun hint => ?_, hwrite⟩
      have hone := h.readFixSize_data hlt hroom [datas.flatten]
        (fun d hd => List.mem_singleton.mp hd ▸ ⟨hne, by omega⟩) (by rwa [List.flatten_singleton])
      rwa [if_neg (Nat.pos_iff_ne_zero.mp hpos), List.flatten_singleton, hwrite] at hone

end Inv

/-- **Transfers.** -/
theorem transfers {b : ByteArray} (h : Inv b) (junk : Nat → Nat → UInt8) (len : Nat) :
    Drains b len ∧ (len ≤ (b.addCapacity junk len).getCapacity → Fills b junk len) :=
  ⟨h.drains len, h.fills⟩

/-- Two bytes in a block of four. -/
theorem run_two : Run Moves (new (fun _ => 0) 4) [.op (.write (fun _ _ => 0) [1, 2])]
    ⟨4, 2, 4, 2, [⟨[1, 2, 0, 0]⟩], some 0⟩ := .cons rfl (.nil _)

/-- Two more bytes that come in where five could: the cursor stands on the next node, and by `write`
on none. -/
theorem not_transfers : ¬∀ (b : ByteArray) (junk : Nat → Nat → UInt8) (len : Nat)
    (data : List UInt8), Inv b → len ≤ (b.addCapacity junk len).getCapacity → 1 ≤ data.length →
    data.length ≤ len → ∃ b' b'',
      SocketStream.read b junk len (.data data) = .ok (.ofNat data.length, b') ∧
      b.write junk data = .ok b'' ∧ b'.m_position = b''.m_position ∧ b'.m_size = b''.m_size ∧
      b'.nodes.bytes.take b'.m_size = b''.nodes.bytes.take b''.m_size ∧ b'.m_cur = b''.m_cur := by
  intro h
  obtain ⟨b', b'', hread, hwrite, -, -, -, hcur⟩ := h _ (fun _ _ => 0) 5 [3, 4]
    (reachable_inv (by decide) run_two).1 (by decide) (by decide) (by decide)
  cases hread
  cases hwrite
  cases hcur

theorem transfers_five : ∃ b, b.m_position = 2 ∧ Drains b 5 ∧ Fills b (fun _ _ => 0) 5 := by
  obtain ⟨hdrains, hfills⟩ := transfers (reachable_inv (by decide) run_two).1 (fun _ _ => 0) 5
  exact ⟨_, rfl, hdrains, hfills (by decide)⟩

end ByteArray

end Captain
