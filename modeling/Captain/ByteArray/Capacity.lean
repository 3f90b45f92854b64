import Captain.ByteArray.Iovecs

/-!
# What `addCapacity` leaves to be written

A transfer of `n` bytes follows `m_cur->next` without a null check, so it needs room for all of
them. `addCapacity` counts the nodes it appends as a quotient and one more when the remainder is
larger than the *old* remaining capacity, where one more is needed whenever there is a remainder.

`addCapacity_iff`: in every reachable state the transfer gets its room, in the number of nodes
it takes and no more, if and only if the old capacity sufficed, or nothing remains, or the
remainder happens to be larger than the old capacity. `short_of_remainder` is what happens
otherwise: `write` and `getWriteBuffers` step onto the null node.
-/

namespace Captain

open Chunks Transition

namespace ByteArray

/-! ## Transfers that do not fit -/

theorem next_last {ns : Chain} {i : Nat} (h : i + 1 = ns.length) : ns.next (some i) = .ok none := by
  rw [Chain.next, if_neg (by omega)]

/-- A write that does not fit into the chain ends on the null node after it. -/
theorem writeLoop_short (turns : Nat) :
    ∀ (b : ByteArray) {B i : Nat} (off : Nat) (buf : List UInt8), b.nodes.Uniform B →
      i < b.nodes.length → off < B → b.m_cur = some i →
      B * b.nodes.length < i * B + off + buf.length → b.nodes.length ≤ i + turns →
      writeLoop turns b off (B - off) buf = .error .nullNode := by
  induction turns with
  | zero =>
    intro b B i off buf _ hi _ _ _ hturns
    omega
  | succ turns ih =>
    intro b B i off buf h hi hoff hcur hbig hturns
    have hmul : (i + 1) * B = i * B + B := by ring
    have hend : (i + 1) * B ≤ B * b.nodes.length := by
      rw [Nat.mul_comm B]
      exact Nat.mul_le_mul_right B hi
    have htake : (buf.take (B - off)).length = B - off := by
      rw [List.length_take]
      omega
    obtain ⟨ns, hst, hns, hu, -⟩ := h.store_at hi off (buf.take (B - off)) (by omega)
    rw [writeLoop, if_neg (by omega), if_neg (by omega), hcur, hst]
    by_cases hlast : i + 1 = b.nodes.length
    · -- the last node is full and there is more to copy
      simp only [bind, Except.bind, next_last (hlast.trans hns.symm), Chain.deref]
    · have hi' : i + 1 < ns.length := by omega
      have hnext := hu.next_at (i := i) (by omega)
      have hcur' := hu.cursor_at hi' h.base_pos
      rw [Nat.add_zero] at hcur'
      obtain ⟨n, -, hd, hsize⟩ := hu.deref_at hi'
      have hdrop : (buf.drop (B - off)).length = buf.length - (B - off) := List.length_drop
      have hrun := ih
        { b with nodes := ns, m_cur := some (i + 1), m_position := b.m_position + (B - off) }
        0 (buf.drop (B - off)) hu hi' h.base_pos rfl
        (by dsimp only; rw [hns]; omega) (by dsimp only; omega)
      rw [Nat.sub_zero] at hrun
      simp only [bind, Except.bind, hnext, hcur', hd, hsize]
      exact hrun

/-- A transfer that does not fit runs onto the null node. -/
theorem iovecLoop_short {ns : Chain} {B : Nat} (h : ns.Uniform B) (turns : Nat) :
    ∀ {i : Nat} (off len : Nat) (buffers : List Iovec), i < ns.length → off < B →
      B * ns.length < i * B + off + len → ns.length ≤ i + turns →
      iovecLoop ns turns (some i) off (B - off) len buffers = .error .nullNode := by
  induction turns with
  | zero =>
    intro i off len buffers hi _ _ hturns
    omega
  | succ turns ih =>
    intro i off len buffers hi hoff hbig hturns
    have hmul : (i + 1) * B = i * B + B := by ring
    have hend : (i + 1) * B ≤ B * ns.length := by
      rw [Nat.mul_comm B]
      exact Nat.mul_le_mul_right B hi
    obtain ⟨n, -, hd, -⟩ := h.deref_at hi
    rw [iovecLoop, if_neg (by omega), if_neg (by omega)]
    by_cases hlast : i + 1 = ns.length
    · simp only [bind, Except.bind, hd, next_last hlast]
      rfl
    · have hi' : i + 1 < ns.length := by omega
      have hcur := h.cursor_at hi' h.base_pos
      rw [Nat.add_zero] at hcur
      obtain ⟨m, -, hd', hm⟩ := h.deref_at hi'
      have hrun := ih 0 (len - (B - off)) (buffers ++ [⟨some i, off, B - off⟩]) hi' h.base_pos
        (by omega) (by omega)
      simp only [bind, Except.bind, hd, h.next_at hi, hcur, hd', hm]
      exact hrun

/-! ## The nodes that are appended -/

/-- The nodes that `addCapacity` counts for `size` bytes. -/
def count (b : ByteArray) (size : Nat) : Nat :=
  if size ≤ b.getCapacity then 0
  else (size - b.getCapacity) / b.m_baseSize +
    if (size - b.getCapacity) % b.m_baseSize > b.getCapacity then 1 else 0

theorem nodes_addCapacity (b : ByteArray) (junk : Nat → Nat → UInt8) (size : Nat) :
    (b.addCapacity junk size).nodes =
      b.nodes ++ (List.range (b.count size)).map fun i => Node.new (junk i) b.m_baseSize := by
  unfold addCapacity count
  split
  · rename_i hsize
    rw [if_pos (by omega), List.range_zero, List.map_nil, List.append_nil]
  · dsimp only
    split
    · rw [List.range_zero, List.map_nil, List.append_nil]
    · rfl

/-- The nodes it takes to hold `d` more bytes. -/
theorem ceil_div {d B : Nat} (hB : 1 ≤ B) :
    (d + B - 1) / B = d / B + if d % B = 0 then 0 else 1 := by
  have hdm := Nat.div_add_mod d B
  have hlt := Nat.mod_lt d hB
  split
  · rename_i hmod
    have hsum : d + B - 1 = B * (d / B) + (B - 1) := by omega
    have hdiv : (B - 1) / B = 0 := Nat.div_eq_of_lt (by omega)
    rw [hsum, Nat.mul_add_div hB, hdiv]
  · rename_i hmod
    have hdiv : (d % B - 1) / B = 0 := Nat.div_eq_of_lt (by omega)
    have hsum : d + B - 1 = B * (d / B + 1) + (d % B - 1) := by
      rw [Nat.mul_add, Nat.mul_one]
      omega
    rw [hsum, Nat.mul_add_div hB, hdiv, Nat.add_zero]

/-- `n` bytes fit before the end of the chain, or what is missing is a multiple of the block
size, or its remainder is larger than the remaining capacity. -/
def Fits (b : ByteArray) (n : Nat) : Prop :=
  n ≤ b.getCapacity ∨ (n - b.getCapacity) % b.m_baseSize = 0 ∨
    b.getCapacity < (n - b.getCapacity) % b.m_baseSize

namespace Inv

variable {b : ByteArray} (h : Inv b)
include h

theorem count_iff (n : Nat) :
    b.count n = (if b.getCapacity < n then (n - b.getCapacity + b.m_baseSize - 1) / b.m_baseSize
      else 0) ↔ b.Fits n := by
  have hB := h.uniform.base_pos
  unfold count Fits
  by_cases hn : n ≤ b.getCapacity
  · rw [if_pos hn, if_neg (by omega)]
    exact ⟨fun _ => Or.inl hn, fun _ => rfl⟩
  · have hlt : b.getCapacity < n := by omega
    rw [if_neg hn, if_pos hlt, ceil_div hB]
    split <;> split <;> omega

theorem capacity_addCapacity (junk : Nat → Nat → UInt8) (n : Nat) :
    (b.addCapacity junk n).getCapacity = b.getCapacity + b.m_baseSize * b.count n := by
  obtain ⟨h', hB, hp, -, -⟩ := h.addCapacity_spec junk n
  have hle := h.position_le
  have hsize := h.size_le
  have hlen : (b.addCapacity junk n).nodes.length = b.nodes.length + b.count n := by
    simp [nodes_addCapacity]
  unfold getCapacity
  rw [h'.capacity, hB, hp, hlen, Nat.mul_add, ← h.capacity]
  omega

/-- The room that `addCapacity` leaves is enough in the same cases. -/
theorem room_iff (junk : Nat → Nat → UInt8) (n : Nat) :
    n ≤ (b.addCapacity junk n).getCapacity ↔ b.Fits n := by
  have hB := h.uniform.base_pos
  rw [h.capacity_addCapacity]
  by_cases hn : n ≤ b.getCapacity
  · exact ⟨fun _ => Or.inl hn, fun _ => by omega⟩
  · have hdm := Nat.div_add_mod (n - b.getCapacity) b.m_baseSize
    have hlt := Nat.mod_lt (n - b.getCapacity) hB
    rw [count, if_neg hn, Fits, Nat.mul_add]
    split <;> omega

/-- There is always a node to start on, also when the room is short. -/
theorem start_addCapacity (junk : Nat → Nat → UInt8) {n : Nat} (hn : 1 ≤ n) :
    (b.addCapacity junk n).m_position < (b.addCapacity junk n).m_capacity := by
  have hB := h.uniform.base_pos
  have hcap := h.capacity_addCapacity junk n
  have hcount : b.getCapacity = 0 → 1 ≤ b.count n := by
    intro hzero
    rw [count, hzero, if_neg (by omega), Nat.sub_zero]
    exact Nat.pos_of_ne_zero (nodes_needed_ne_zero (by omega))
  have hroom : 0 < (b.addCapacity junk n).getCapacity := by
    rw [hcap]
    rcases Nat.eq_zero_or_pos b.getCapacity with hzero | hpos
    · have := Nat.mul_pos hB (hcount hzero)
      omega
    · omega
  exact Nat.lt_of_sub_pos hroom

/-- A write without room for its bytes steps onto the null node. -/
theorem write_short {junk : Nat → Nat → UInt8} {buf : List UInt8} (hbuf : 1 ≤ buf.length)
    (hshort : ¬buf.length ≤ (b.addCapacity junk buf.length).getCapacity) :
    b.write junk buf = .error .nullNode := by
  obtain ⟨h₁, hB, hp, -, -⟩ := h.addCapacity_spec junk buf.length
  obtain ⟨hi, hoff, hcur, hpos⟩ := h₁.start (h.start_addCapacity junk hbuf)
  obtain ⟨n, -, hd, hsize⟩ := h₁.uniform.deref_at hi
  rw [write, if_neg (by omega)]
  set c := b.addCapacity junk buf.length with hc
  have hrun := writeLoop_short c.nodes.length c _ buf h₁.uniform hi hoff hcur
    (by rw [← hpos, ← h₁.capacity]; unfold getCapacity at hshort; omega) (Nat.le_add_left _ _)
  simp only [bind, Except.bind, hcur, hd, hsize]
  rw [hrun]

theorem getWriteBuffers_fits (junk : Nat → Nat → UInt8) {n : Nat} (hn : 1 ≤ n)
    (hroom : n ≤ (b.addCapacity junk n).getCapacity) :
    ∃ segments, b.getWriteBuffers junk n = .ok (b.addCapacity junk n, segments, n) ∧
      Tiles (b.addCapacity junk n).nodes.length b.m_baseSize segments b.m_position n := by
  obtain ⟨h₁, hB, hp, -, -⟩ := h.addCapacity_spec junk n
  obtain ⟨hi, hoff, hcur, hpos⟩ := h₁.start (h.start_addCapacity junk hn)
  obtain ⟨m, -, hd, hsize⟩ := h₁.uniform.deref_at hi
  rw [getWriteBuffers, if_neg (by omega)]
  set c := b.addCapacity junk n with hc
  unfold getCapacity at hroom
  obtain ⟨segments, hrun, htiles⟩ := iovecLoop_tiles h₁.uniform c.nodes.length _ n [] hi hoff hn
    (by rw [← hpos, ← h₁.capacity]; omega) (Nat.le_add_left _ _)
  rw [← hpos, hB, hp] at htiles
  refine ⟨segments, ?_, htiles⟩
  simp only [bind, Except.bind, hcur, hd, hsize]
  rw [hrun, List.nil_append]

theorem getWriteBuffers_short {junk : Nat → Nat → UInt8} {n : Nat} (hn : 1 ≤ n)
    (hshort : ¬n ≤ (b.addCapacity junk n).getCapacity) :
    b.getWriteBuffers junk n = .error .nullNode := by
  obtain ⟨h₁, -, -, -, -⟩ := h.addCapacity_spec junk n
  obtain ⟨hi, hoff, hcur, hpos⟩ := h₁.start (h.start_addCapacity junk hn)
  obtain ⟨m, -, hd, hsize⟩ := h₁.uniform.deref_at hi
  rw [getWriteBuffers, if_neg (by omega)]
  set c := b.addCapacity junk n with hc
  unfold getCapacity at hshort
  have hrun := iovecLoop_short h₁.uniform c.nodes.length _ n [] hi hoff
    (by rw [← hpos, ← h₁.capacity]; omega) (Nat.le_add_left _ _)
  simp only [bind, Except.bind, hcur, hd, hsize]
  rw [hrun]

end Inv

/-! ## Reachable states -/

/-- A call of an operation that changes the array. -/
inductive Move
  | op (o : Op)
  | getWriteBuffers (junk : Nat → Nat → UInt8) (len : Nat)

def move (b : ByteArray) : Move → Except Fault ByteArray
  | .op o => (b.call o).map Prod.fst
  | .getWriteBuffers junk len => (b.getWriteBuffers junk len).map Prod.fst

/-- The calls that return: one that throws leaves the array as it is, one that dereferences the
null node ends the run. -/
def Moves (b : ByteArray) (m : Move) (b' : ByteArray) : Prop := b.move m = .ok b'

/-- Reading nothing looks at the current node, and changes nothing if there is one. -/
theorem Inv.of_read_zero {b b' : ByteArray} {out : List UInt8} (h : Inv b)
    (hread : b.read 0 = .ok (b', out)) : b' = b := by
  obtain ⟨turns, hturns⟩ := Nat.exists_eq_succ_of_ne_zero h.root_lt.ne'
  rw [read, if_neg (by omega), hturns] at hread
  cases hd : b.nodes.deref b.m_cur with
  | error e =>
    simp only [bind, Except.bind, hd] at hread
    cases hread
  | ok n =>
    simp only [bind, Except.bind, hd, readLoop, if_pos] at hread
    cases hread
    rfl

theorem Inv.of_call {b b' : ByteArray} {op : Op} {out : List UInt8} (h : Inv b)
    (hcall : b.call op = .ok (b', out)) : Inv b' ∧ b'.m_baseSize = b.m_baseSize := by
  have hlegal : Legal b op → Inv b' ∧ b'.m_baseSize = b.m_baseSize := by
    intro hop
    obtain ⟨b₁, out₁, hcall₁, hbase, h₁, -⟩ := call_spec h hop
    rw [hcall] at hcall₁
    cases hcall₁
    exact ⟨h₁, hbase⟩
  cases op with
  | write junk buf =>
    rcases Nat.eq_zero_or_pos buf.length with hzero | hbuf
    · rw [call, write, if_pos hzero] at hcall
      cases hcall
      exact ⟨h, rfl⟩
    · by_cases hroom : buf.length ≤ (b.addCapacity junk buf.length).getCapacity
      · exact hlegal ⟨hbuf, hroom⟩
      · rw [call, h.write_short hbuf hroom] at hcall
        cases hcall
  | read n =>
    rcases Nat.eq_zero_or_pos n with rfl | hn
    · rw [h.of_read_zero hcall]
      exact ⟨h, rfl⟩
    · by_cases hle : n ≤ b.getReadSize
      · exact hlegal ⟨hn, hle⟩
      · rw [call, read, if_pos (by omega)] at hcall
        cases hcall
  | setPosition v =>
    by_cases hv : v ≤ b.m_capacity
    · exact hlegal hv
    · rw [call, setPosition, if_pos (by omega)] at hcall
      cases hcall
  | clear => exact hlegal trivial

theorem Inv.of_moves {b b' : ByteArray} {m : Move} (h : Inv b) (hm : Moves b m b') :
    Inv b' ∧ b'.m_baseSize = b.m_baseSize := by
  unfold Moves at hm
  cases m with
  | op o =>
    cases hcall : b.call o with
    | error e =>
      rw [move, hcall] at hm
      cases hm
    | ok r =>
      rw [move, hcall] at hm
      cases hm
      exact h.of_call hcall
  | getWriteBuffers junk len =>
    rcases Nat.eq_zero_or_pos len with rfl | hlen
    · rw [move, getWriteBuffers, if_pos rfl] at hm
      cases hm
      exact ⟨h, rfl⟩
    · by_cases hroom : len ≤ (b.addCapacity junk len).getCapacity
      · obtain ⟨segments, hrun, -⟩ := h.getWriteBuffers_fits _ hlen hroom
        rw [move, hrun] at hm
        cases hm
        obtain ⟨h', hbase, -⟩ := h.addCapacity_spec junk len
        exact ⟨h', hbase⟩
      · rw [move, h.getWriteBuffers_short hlen hroom] at hm
        cases hm

theorem reachable_inv {B : Nat} (hB : 1 ≤ B) {junk : Nat → UInt8} {ms : List Move}
    {b : ByteArray} (hrun : Run Moves (new junk B) ms b) : Inv b ∧ b.m_baseSize = B :=
  hrun.invariant (I := fun b => Inv b ∧ b.m_baseSize = B)
    (fun _ _ _ hinv hm => ⟨(hinv.1.of_moves hm).1, (hinv.1.of_moves hm).2.trans hinv.2⟩)
    ⟨new_inv junk hB, rfl⟩

/-! ## What `addCapacity` is for -/

/-- `addCapacity(n)` makes room for `n` bytes from the position on, in as many nodes of `B` bytes
as that takes and with nothing else changed, and the transfers of `n` bytes run through. -/
structure Provides (b : ByteArray) (junk : Nat → Nat → UInt8) (B n : Nat) : Prop where
  room : n ≤ (b.addCapacity junk n).m_capacity - (b.addCapacity junk n).m_position
  appended : ∃ fresh : Chain, (b.addCapacity junk n).nodes = b.nodes ++ fresh ∧
    (∀ m ∈ fresh, m.size = B) ∧
    fresh.length = if b.m_capacity - b.m_position < n then
      (n - (b.m_capacity - b.m_position) + B - 1) / B else 0
  capacity : (b.addCapacity junk n).m_capacity = B * (b.addCapacity junk n).nodes.length
  position : (b.addCapacity junk n).m_position = b.m_position
  size : (b.addCapacity junk n).m_size = b.m_size
  cur : (b.addCapacity junk n).m_cur = some (b.m_position / B)
  write : ∀ buf : List UInt8, buf.length = n → ∃ b', b.write junk buf = .ok b'
  segments : ∃ r, b.getWriteBuffers junk n = .ok r

theorem Inv.provides {b : ByteArray} (h : Inv b) (junk : Nat → Nat → UInt8) {n : Nat}
    (hn : 1 ≤ n) (hfits : b.Fits n) : Provides b junk b.m_baseSize n := by
  obtain ⟨h', hB, hp, hs, -⟩ := h.addCapacity_spec junk n
  have hroom : n ≤ (b.addCapacity junk n).getCapacity := (h.room_iff junk n).mpr hfits
  have hstart := h.start_addCapacity junk hn
  refine ⟨hroom, ⟨_, nodes_addCapacity b junk n, ?_, ?_⟩, ?_, hp, hs, ?_, ?_, ?_⟩
  · intro m hm
    obtain ⟨i, -, rfl⟩ := List.mem_map.mp hm
    exact size_new _ _
  · rw [List.length_map, List.length_range]
    exact (h.count_iff n).mpr hfits
  · rw [h'.capacity, hB]
  · rw [h'.cur, if_neg hstart.ne, hp, hB]
  · rintro buf rfl
    obtain ⟨b', -, hrun, -⟩ := h.write_spec _ hn hroom
    exact ⟨b', hrun⟩
  · obtain ⟨segments, hrun, -⟩ := h.getWriteBuffers_fits _ hn hroom
    exact ⟨_, hrun⟩

/-- **Capacity.** In every reachable state and for every `n ≥ 1`, `addCapacity(n)` does what it is
for if and only if the remaining capacity suffices, or what is missing is a multiple of the block
size, or its remainder is larger than the remaining capacity. -/
theorem addCapacity_iff {B : Nat} (hB : 1 ≤ B) {junk₀ : Nat → UInt8} {ms : List Move}
    {b : ByteArray} (hrun : Run Moves (new junk₀ B) ms b) (junk : Nat → Nat → UInt8) {n : Nat}
    (hn : 1 ≤ n) :
    Provides b junk B n ↔
      n ≤ b.m_capacity - b.m_position ∨ (n - (b.m_capacity - b.m_position)) % B = 0 ∨
        b.m_capacity - b.m_position < (n - (b.m_capacity - b.m_position)) % B := by
  obtain ⟨h, rfl⟩ := reachable_inv hB hrun
  constructor
  · intro hp
    exact (h.room_iff junk n).mp hp.room
  · exact h.provides junk hn

/-- After two bytes in blocks of four, three more bytes: two fit, one remains, and the block it
needs is not allocated. -/
theorem not_addCapacity :
    ∃ b, Run Moves (new (fun _ => 0) 4) [.op (.write (fun _ _ => 0) [1, 2])] b ∧
      ¬Provides b (fun _ _ => 0) 4 3 ∧
      b.write (fun _ _ => 0) [3, 4, 5] = .error .nullNode ∧
      b.getWriteBuffers (fun _ _ => 0) 3 = .error .nullNode := by
  refine ⟨⟨4, 2, 4, 2, [⟨[1, 2, 0, 0]⟩], some 0⟩, .cons rfl (.nil _), ?_, rfl, rfl⟩
  intro hp
  exact absurd hp.room (by decide)

/-- After two bytes in blocks of four, five more bytes: the remainder, three, is larger than the
two bytes that are left, and the block is allocated. -/
theorem addCapacity_iff_two :
    ∃ b, Run Moves (new (fun _ => 0) 4) [.op (.write (fun _ _ => 0) [1, 2])] b ∧
      Provides b (fun _ _ => 0) 4 5 := by
  have hrun : Run Moves (new (fun _ => 0) 4) [.op (.write (fun _ _ => 0) [1, 2])]
      ⟨4, 2, 4, 2, [⟨[1, 2, 0, 0]⟩], some 0⟩ := .cons rfl (.nil _)
  exact ⟨_, hrun, (addCapacity_iff (by decide) hrun _ (by decide)).mpr (by decide)⟩

end ByteArray

end Captain
