import Captain.ByteArray.Model
import Mathlib.Tactic.Ring
import Mathlib.Tactic.Set

/-!
# The cursor of a `ByteArray`

`Inv` is the invariant of the chunked array: all blocks have the base size, the capacity is
that of the chain, `m_position ≤ m_size ≤ m_capacity`, and `m_cur` is the node that holds
`m_position`, or the null pointer when `m_position` is the end of the capacity.

One lemma for each operation says that it runs without a fault, keeps `Inv`, and what it does
to the bytes: `addCapacity_spec`, `write_spec`, `read_spec`, `setPosition_spec` and
`clear_spec`. The loops of `write` and `read` are followed from node to node by
`writeLoop_spec` and `readLoop_spec`.
-/

namespace Captain

open Chunks

@[simp] theorem size_new (junk : Nat → UInt8) (s : Nat) : (Node.new junk s).size = s := by
  simp [Node.new, Node.size]

/-! ## Chains of equal blocks -/

namespace Chain

/-- All the bytes of the chain, one block after the other. -/
def bytes (ns : Chain) : List UInt8 := (ns.map Node.ptr).flatten

/-- The node that holds position `pos`; the null pointer at the end of the chain. -/
def cursor (ns : Chain) (B pos : Nat) : Option Nat :=
  if pos = B * ns.length then none else some (pos / B)

/-- Offset `off` of node `i` comes before the end of the chain. -/
theorem lt_end {ns : Chain} {B i off : Nat} (hi : i < ns.length) (hoff : off < B) :
    i * B + off < B * ns.length := by
  have hle : (i + 1) * B ≤ ns.length * B := Nat.mul_le_mul_right _ hi
  have hmul : (i + 1) * B = i * B + B := by ring
  rw [Nat.mul_comm B]
  omega

/-- A transfer that starts at offset `off` of node `i`, does not fit there and ends inside the
chain finds a next node. -/
theorem lt_of_overflow {ns : Chain} {B i off : Nat} (hoff : off < B) (size : Nat)
    (hbig : B - off < size) (hfit : i * B + off + size ≤ B * ns.length) : i + 1 < ns.length := by
  have hmul : (i + 1) * B = i * B + B := by ring
  rw [Nat.mul_comm B] at hfit
  exact Nat.lt_of_mul_lt_mul_right (a := B) (by omega)

structure Uniform (ns : Chain) (B : Nat) : Prop where
  base_pos : 1 ≤ B
  blocks : ∀ n ∈ ns, n.size = B

namespace Uniform

variable {ns : Chain} {B : Nat} (h : Uniform ns B)
include h

theorem ptr_length : ∀ c ∈ ns.map Node.ptr, c.length = B := by
  intro c hc
  obtain ⟨n, hn, rfl⟩ := List.mem_map.mp hc
  exact h.blocks n hn

theorem length_bytes : ns.bytes.length = B * ns.length := by
  rw [bytes, length_flatten h.ptr_length, List.length_map, Nat.mul_comm]

theorem cursor_at {i off : Nat} (hi : i < ns.length) (hoff : off < B) :
    ns.cursor B (i * B + off) = some i := by
  have hlt := lt_end hi hoff
  have hdiv : (i * B + off) / B = i := by
    rw [Nat.mul_comm, Nat.mul_add_div h.base_pos, Nat.div_eq_of_lt hoff, Nat.add_zero]
  rw [cursor, if_neg (by omega), hdiv]

theorem deref_at {i : Nat} (hi : i < ns.length) :
    ∃ n, ns[i]? = some n ∧ ns.deref (some i) = .ok n ∧ n.size = B := by
  obtain ⟨n, hn⟩ : ∃ n, ns[i]? = some n := ⟨_, List.getElem?_eq_getElem hi⟩
  exact ⟨n, hn, by simp [deref, hn], h.blocks n (List.mem_of_getElem? hn)⟩

/-- `next` of a node is where the cursor of the end of that node stands. -/
theorem next_at {i : Nat} (hi : i < ns.length) :
    ns.next (some i) = .ok (ns.cursor B ((i + 1) * B)) := by
  have hpos := h.base_pos
  simp only [next]
  by_cases hl : i + 1 < ns.length
  · have hcur := h.cursor_at hl hpos
    rw [if_pos hl, ← hcur, Nat.add_zero]
  · have heq : i + 1 = ns.length := by omega
    rw [if_neg hl, cursor, if_pos (by rw [heq, Nat.mul_comm])]

/-- A transfer or a seek that stops at offset `pos` of node `i`, its edge included, leaves the
cursor of that position. -/
theorem pass_at {i : Nat} (hi : i < ns.length) (pos : Nat) (hpos : pos ≤ B) :
    ns.pass (some i) pos = .ok (ns.cursor B (i * B + pos)) := by
  obtain ⟨n, -, hd, hsize⟩ := h.deref_at hi
  simp only [pass, hd, bind, Except.bind, hsize]
  by_cases he : B = pos
  · subst he
    rw [if_pos rfl, h.next_at hi, Nat.add_mul, Nat.one_mul]
  · rw [if_neg he, h.cursor_at hi (by omega)]

theorem store_at {i : Nat} (hi : i < ns.length) (off : Nat) (src : List UInt8)
    (hs : off + src.length ≤ B) :
    ∃ ns', ns.store (some i) off src = .ok ns' ∧ ns'.length = ns.length ∧ Uniform ns' B ∧
      ns'.bytes = overwrite ns.bytes (i * B + off) src := by
  obtain ⟨n, hn, -, hsize⟩ := h.deref_at hi
  have hlen : (overwrite n.ptr off src).length = n.size := length_overwrite (by
    rw [Node.size] at hsize
    omega)
  refine ⟨ns.set i ⟨overwrite n.ptr off src⟩, ?_, List.length_set, ⟨h.base_pos, ?_⟩, ?_⟩
  · simp only [store, hn]
    rw [if_pos (by omega)]
  · intro m hm
    rcases List.mem_or_eq_of_mem_set hm with hm | rfl
    · exact h.blocks m hm
    · rw [← hsize, ← hlen, Node.size]
  · simp only [bytes, List.map_set]
    exact overwrite_flatten h.ptr_length (by rw [List.getElem?_map, hn]; rfl) hs

theorem load_at {i : Nat} (hi : i < ns.length) (off size : Nat) (hs : off + size ≤ B) :
    ns.load (some i) off size = .ok (slice ns.bytes (i * B + off) size) := by
  obtain ⟨m, hm, hd, hsize⟩ := h.deref_at hi
  simp only [load, hd, bind, Except.bind]
  rw [if_pos (by omega), bytes,
    slice_flatten h.ptr_length (c := m.ptr) (by rw [List.getElem?_map, hm]; rfl) hs]

theorem exists_at (pos : Nat) (hp : pos < B * ns.length) :
    pos / B < ns.length ∧ pos % B < B ∧ pos / B * B + pos % B = pos :=
  ⟨Nat.div_lt_of_lt_mul hp, Nat.mod_lt _ h.base_pos, by rw [Nat.mul_comm]; exact Nat.div_add_mod ..⟩

end Uniform

theorem cursor_congr {ns ns' : Chain} (h : ns'.length = ns.length) (B pos : Nat) :
    ns'.cursor B pos = ns.cursor B pos := by simp only [cursor, h]

end Chain

namespace ByteArray

theorem write_nil (b : ByteArray) (junk : Nat → Nat → UInt8) : b.write junk [] = .ok b := if_pos rfl

/-! ## The copying loops -/

theorem writeLoop_spec (turns : Nat) :
    ∀ (b : ByteArray) {B i : Nat} (off : Nat) (buf : List UInt8), b.nodes.Uniform B →
      i < b.nodes.length → off < B → b.m_cur = some i → b.m_position = i * B + off →
      buf ≠ [] → b.m_position + buf.length ≤ B * b.nodes.length →
      b.nodes.length ≤ i + turns →
      ∃ ns, writeLoop turns b off (B - off) buf =
          .ok { b with
            nodes := ns
            m_position := b.m_position + buf.length
            m_cur := b.nodes.cursor B (b.m_position + buf.length) } ∧
        ns.length = b.nodes.length ∧ ns.Uniform B ∧
        ns.bytes = overwrite b.nodes.bytes b.m_position buf := by
  induction turns with
  | zero =>
    intro b B i off buf _ hi _ _ _ _ _ hturns
    omega
  | succ turns ih =>
    intro b B i off buf h hi hoff hcur hpos hbuf hfit hturns
    have hlen : buf.length ≠ 0 := by simpa using hbuf
    rw [writeLoop, if_neg hlen]
    by_cases hcap : B - off ≥ buf.length
    · -- the transfer ends in this node
      obtain ⟨ns, hst, hns, hu, hby⟩ := h.store_at hi off buf (by omega)
      have hpass := hu.pass_at (i := i) (by omega) (off + buf.length) (by omega)
      rw [← Nat.add_assoc, ← hpos, Chain.cursor_congr hns] at hpass
      refine ⟨ns, ?_, hns, hu, by rw [hby, hpos]⟩
      rw [if_pos hcap, hcur, hst]
      simp only [bind, Except.bind, hpass]
    · -- the node is filled and the transfer goes on in the next one
      have htake : (buf.take (B - off)).length = B - off := by
        rw [List.length_take]
        omega
      have hdrop : (buf.drop (B - off)).length = buf.length - (B - off) := List.length_drop
      have hmul : (i + 1) * B = i * B + B := by ring
      obtain ⟨ns, hst, hns, hu, hby⟩ :=
        h.store_at hi off (buf.take (B - off)) (by omega)
      have hi' : i + 1 < ns.length := by
        rw [hns]
        exact Chain.lt_of_overflow hoff buf.length (by omega) (by omega)
      have hnext := hu.next_at (i := i) (by omega)
      have hcur' := hu.cursor_at hi' h.base_pos
      rw [Nat.add_zero] at hcur'
      obtain ⟨n, -, hd, hsize⟩ := hu.deref_at hi'
      obtain ⟨ns', hrun, hns', hu', hby'⟩ := ih
        { b with nodes := ns, m_cur := some (i + 1), m_position := b.m_position + (B - off) }
        0 (buf.drop (B - off)) hu hi' h.base_pos rfl
        (by dsimp only; omega) (by rw [ne_eq, ← List.length_eq_zero_iff]; omega)
        (by dsimp only; rw [hns]; omega) (by dsimp only; omega)
      have hsum : b.m_position + (B - off) + (buf.drop (B - off)).length =
          b.m_position + buf.length := by omega
      refine ⟨ns', ?_, by rw [hns', hns], hu', ?_⟩
      · rw [if_neg hcap, hcur, hst]
        simp only [bind, Except.bind, hnext, hcur', hd, hsize]
        rw [Nat.sub_zero] at hrun
        rw [hrun]
        simp only [hsum, Chain.cursor_congr hns]
      · have hroom : b.m_position + (buf.take (B - off)).length ≤ b.nodes.bytes.length := by
          rw [h.length_bytes, htake]
          omega
        have hover := overwrite_overwrite (buf.drop (B - off)) hroom
        rw [htake, List.take_append_drop] at hover
        rw [hby', hby, ← hpos, hover]

theorem readLoop_spec (turns : Nat) :
    ∀ (b : ByteArray) {B i : Nat} (off size : Nat) (buf : List UInt8), b.nodes.Uniform B →
      i < b.nodes.length → off < B → b.m_cur = some i → b.m_position = i * B + off →
      1 ≤ size → b.m_position + size ≤ B * b.nodes.length → b.nodes.length ≤ i + turns →
      readLoop turns b off (B - off) size buf =
        .ok ({ b with
            m_position := b.m_position + size
            m_cur := b.nodes.cursor B (b.m_position + size) },
          buf ++ slice b.nodes.bytes b.m_position size) := by
  induction turns with
  | zero =>
    intro b B i off size buf _ hi _ _ _ _ _ hturns
    omega
  | succ turns ih =>
    intro b B i off size buf h hi hoff hcur hpos hsize hfit hturns
    rw [readLoop, if_neg (by omega)]
    by_cases hcap : B - off ≥ size
    · -- the transfer ends in this node
      have hload := h.load_at hi off size (by omega)
      have hpass := h.pass_at hi (off + size) (by omega)
      rw [← Nat.add_assoc, ← hpos] at hpass
      rw [← hpos] at hload
      rw [if_pos hcap, hcur]
      simp only [bind, Except.bind, hload, hpass]
    · -- the rest of the node is read and the transfer goes on in the next one
      have hmul : (i + 1) * B = i * B + B := by ring
      have hload := h.load_at hi off (B - off) (by omega)
      rw [← hpos] at hload
      have hi' : i + 1 < b.nodes.length :=
        Chain.lt_of_overflow hoff size (by omega) (by omega)
      have hnext := h.next_at hi
      have hcur' := h.cursor_at hi' h.base_pos
      rw [Nat.add_zero] at hcur'
      obtain ⟨n, -, hd, hn⟩ := h.deref_at hi'
      have hrun := ih
        { b with m_cur := some (i + 1), m_position := b.m_position + (B - off) } 0
        (size - (B - off)) (buf ++ slice b.nodes.bytes b.m_position (B - off)) h hi' h.base_pos rfl
        (by dsimp only; omega) (by omega) (by dsimp only; omega) (by dsimp only; omega)
      have hsum : b.m_position + (B - off) + (size - (B - off)) = b.m_position + size := by omega
      have hsplit := slice_add b.nodes.bytes b.m_position (B - off) (size - (B - off))
      rw [show B - off + (size - (B - off)) = size by omega] at hsplit
      rw [if_neg hcap, hcur]
      simp only [bind, Except.bind, hload, hnext, hcur', hd, hn]
      rw [Nat.sub_zero] at hrun
      rw [hrun]
      simp only [hsum, List.append_assoc, hsplit]

/-- The walk from node `i` stops at the node whose block reaches position `v`, counted from the
start of that node, with what is left of `v` there. -/
theorem seekLoop_spec {ns : Chain} {B : Nat} (h : ns.Uniform B) (turns : Nat) :
    ∀ {i v : Nat}, i < ns.length → i * B + v ≤ B * ns.length → ns.length ≤ i + turns →
      ∃ j r, seekLoop ns turns (some i) v = .ok (some j, r) ∧ j < ns.length ∧ r ≤ B ∧
        j * B + r = i * B + v := by
  induction turns with
  | zero =>
    intro i v hi _ hturns
    omega
  | succ turns ih =>
    intro i v hi hv hturns
    obtain ⟨n, -, hd, hsize⟩ := h.deref_at hi
    simp only [seekLoop, hd, bind, Except.bind, hsize]
    by_cases hgt : v > B
    · have hmul : (i + 1) * B = i * B + B := by ring
      have hi' : i + 1 < ns.length :=
        Chain.lt_of_overflow h.base_pos v (by omega) (by omega)
      have hcur := h.cursor_at hi' h.base_pos
      rw [Nat.add_zero] at hcur
      obtain ⟨j, r, hrun, hj, hr, heq⟩ := ih (i := i + 1) (v := v - B) hi' (by omega) (by omega)
      refine ⟨j, r, ?_, hj, hr, by omega⟩
      rw [if_pos hgt]
      simp only [h.next_at hi, hcur, hrun]
    · exact ⟨i, v, if_neg hgt, hi, by omega, rfl⟩

/-! ## The operations keep the invariant -/

structure Inv (b : ByteArray) : Prop where
  uniform : b.nodes.Uniform b.m_baseSize
  root : b.nodes ≠ []
  capacity : b.m_capacity = b.m_baseSize * b.nodes.length
  position_le : b.m_position ≤ b.m_size
  size_le : b.m_size ≤ b.m_capacity
  cur : b.m_cur =
    if b.m_position = b.m_capacity then none else some (b.m_position / b.m_baseSize)

/-- `addCapacity` at the end of the chain adds a node at least. -/
theorem nodes_needed_ne_zero {size B : Nat} (hsize : size ≠ 0) :
    (size / B + if size % B > 0 then 1 else 0) ≠ 0 := by
  by_cases hmod : size % B > 0
  · rw [if_pos hmod]
    exact Nat.succ_ne_zero _
  · have hdm := Nat.div_add_mod size B
    intro hzero
    rw [if_neg hmod, Nat.add_zero] at hzero
    rw [hzero, Nat.mul_zero, Nat.zero_add] at hdm
    omega

namespace Inv

variable {b : ByteArray} (h : Inv b)
include h

theorem length_bytes : b.nodes.bytes.length = b.m_capacity := by
  rw [h.uniform.length_bytes, h.capacity]

theorem root_lt : 0 < b.nodes.length := List.length_pos_iff.mpr h.root

/-- The state in which a transfer starts: the current node holds the position. -/
theorem start (hlt : b.m_position < b.m_capacity) :
    b.m_position / b.m_baseSize < b.nodes.length ∧
      b.m_position % b.m_baseSize < b.m_baseSize ∧
      b.m_cur = some (b.m_position / b.m_baseSize) ∧
      b.m_position =
        b.m_position / b.m_baseSize * b.m_baseSize + b.m_position % b.m_baseSize := by
  obtain ⟨hi, hoff, hpos⟩ := h.uniform.exists_at b.m_position (h.capacity ▸ hlt)
  refine ⟨hi, hoff, ?_, hpos.symm⟩
  rw [h.cur, if_neg (by omega)]

theorem addCapacity_spec (junk : Nat → Nat → UInt8) (size : Nat) :
    Inv (b.addCapacity junk size) ∧
      (b.addCapacity junk size).m_baseSize = b.m_baseSize ∧
      (b.addCapacity junk size).m_position = b.m_position ∧
      (b.addCapacity junk size).m_size = b.m_size ∧
      ∃ fresh, (b.addCapacity junk size).nodes.bytes = b.nodes.bytes ++ fresh := by
  unfold addCapacity
  split
  · exact ⟨h, rfl, rfl, rfl, [], (List.append_nil _).symm⟩
  · rename_i hsize
    dsimp only
    split
    · exact ⟨h, rfl, rfl, rfl, [], (List.append_nil _).symm⟩
    · rename_i hcap
      set count := (size - b.getCapacity) / b.m_baseSize +
        if (size - b.getCapacity) % b.m_baseSize > b.getCapacity then 1 else 0 with hcount
      have hbase := h.uniform.base_pos
      have hpos := h.position_le
      have hle := h.size_le
      have hcapacity : b.m_capacity + count * b.m_baseSize =
          b.m_baseSize * (b.nodes.length + count) := by
        rw [h.capacity]
        ring
      refine ⟨⟨⟨hbase, ?_⟩, by simp [h.root], ?_, hpos, ?_, ?_⟩, rfl, rfl, rfl,
        Chain.bytes ((List.range count).map fun i => Node.new (junk i) b.m_baseSize), ?_⟩
      · intro n hn
        rcases List.mem_append.mp hn with hn | hn
        · exact h.uniform.blocks n hn
        · obtain ⟨i, -, rfl⟩ := List.mem_map.mp hn
          exact size_new _ _
      · simpa using hcapacity
      · dsimp only
        omega
      · dsimp only
        by_cases hold : b.getCapacity = 0
        · -- the position is the end of the old chain: the first new node holds it
          have hend : b.m_position = b.m_capacity := by
            unfold getCapacity at hold
            omega
          have hcount0 : count ≠ 0 := by
            rw [hcount, hold, Nat.sub_zero]
            exact nodes_needed_ne_zero hsize
          have hlt : 0 < count * b.m_baseSize := Nat.mul_pos (Nat.pos_of_ne_zero hcount0) hbase
          rw [if_pos hold, if_neg hcount0, if_neg (by omega), hend, h.capacity,
            Nat.mul_div_cancel_left _ hbase]
        · have hlt : b.m_position < b.m_capacity := by
            unfold getCapacity at hold
            omega
          rw [if_neg hold, if_neg (by omega), (h.start hlt).2.2.1]
      · simp only [Chain.bytes, List.map_append, List.flatten_append]

/-- A write that got its capacity runs without a fault and overwrites the bytes from the position
on. -/
theorem write_room (junk : Nat → Nat → UInt8) {buf : List UInt8} (hbuf : 1 ≤ buf.length)
    (hcap : buf.length ≤ (b.addCapacity junk buf.length).getCapacity) :
    ∃ b', b.write junk buf = .ok b' ∧ Inv b' ∧ b'.m_baseSize = b.m_baseSize ∧
      b'.m_position = b.m_position + buf.length ∧
      b'.m_size = max b.m_size (b.m_position + buf.length) ∧
      b'.nodes.bytes = overwrite (b.addCapacity junk buf.length).nodes.bytes b.m_position buf := by
  obtain ⟨h₁, hB, hp, hs, -⟩ := h.addCapacity_spec junk buf.length
  rw [write, if_neg (by omega)]
  set c := b.addCapacity junk buf.length with hc
  have hroom : c.m_position + buf.length ≤ c.m_capacity := by
    unfold getCapacity at hcap
    omega
  obtain ⟨hi, hoff, hcur, hpos⟩ := h₁.start (by omega)
  obtain ⟨n, -, hd, hsize⟩ := h₁.uniform.deref_at hi
  obtain ⟨ns, hrun, hns, hu, hby⟩ := writeLoop_spec c.nodes.length c _ buf h₁.uniform hi
    hoff hcur hpos (by rw [ne_eq, ← List.length_eq_zero_iff]; omega) (h₁.capacity ▸ hroom)
    (Nat.le_add_left _ _)
  have hns0 : 0 < ns.length := hns ▸ h₁.root_lt
  have hle := h₁.size_le
  have hple := h₁.position_le
  have hcapacity : c.m_capacity = c.m_baseSize * ns.length := by rw [h₁.capacity, hns]
  have hcursor : c.nodes.cursor c.m_baseSize (c.m_position + buf.length) =
      if c.m_position + buf.length = c.m_capacity then none
      else some ((c.m_position + buf.length) / c.m_baseSize) := by
    rw [Chain.cursor, h₁.capacity]
  refine ⟨{ c with
    nodes := ns
    m_position := c.m_position + buf.length
    m_cur := c.nodes.cursor c.m_baseSize (c.m_position + buf.length)
    m_size := max b.m_size (b.m_position + buf.length) }, ?_,
    ⟨hu, List.ne_nil_of_length_pos hns0, hcapacity, ?_, ?_, hcursor⟩, hB, ?_, rfl, ?_⟩
  · simp only [bind, Except.bind, hcur, hd, hsize]
    rw [hrun]
    dsimp only
    split
    · rename_i hgt
      rw [Nat.max_eq_right (by omega), hp]
    · rename_i hgt
      rw [Nat.max_eq_left (by omega), hs]
  · dsimp only
    omega
  · dsimp only
    omega
  · dsimp only
    omega
  · dsimp only
    rw [hby, hp]

/-- The same, with what the blocks that are added hold before. -/
theorem write_spec (junk : Nat → Nat → UInt8) {buf : List UInt8} (hbuf : 1 ≤ buf.length)
    (hcap : buf.length ≤ (b.addCapacity junk buf.length).getCapacity) :
    ∃ b' fresh, b.write junk buf = .ok b' ∧ Inv b' ∧ b'.m_baseSize = b.m_baseSize ∧
      b'.m_position = b.m_position + buf.length ∧
      b'.m_size = max b.m_size (b.m_position + buf.length) ∧
      b.m_position + buf.length ≤ (b.nodes.bytes ++ fresh).length ∧
      b'.nodes.bytes = overwrite (b.nodes.bytes ++ fresh) b.m_position buf := by
  obtain ⟨h₁, -, hp, -, fresh, hfresh⟩ := h.addCapacity_spec junk buf.length
  obtain ⟨b', hrun, h', hB, hpos, hsize, hbytes⟩ := h.write_room junk hbuf hcap
  refine ⟨b', fresh, hrun, h', hB, hpos, hsize, ?_, by rw [hbytes, hfresh]⟩
  unfold getCapacity at hcap
  rw [← hfresh, h₁.length_bytes]
  omega

/-- A read inside the data runs without a fault and returns the bytes from the position on. -/
theorem read_spec {n : Nat} (hn : 1 ≤ n) (hle : n ≤ b.getReadSize) :
    ∃ b', b.read n = .ok (b', slice b.nodes.bytes b.m_position n) ∧ Inv b' ∧
      b'.m_baseSize = b.m_baseSize ∧ b'.m_position = b.m_position + n ∧
      b'.m_size = b.m_size ∧ b'.nodes = b.nodes := by
  have hsize := h.size_le
  unfold getReadSize at hle
  obtain ⟨hi, hoff, hcur, hpos⟩ := h.start (by omega)
  obtain ⟨m, -, hd, hm⟩ := h.uniform.deref_at hi
  have hrun := readLoop_spec b.nodes.length b _ n [] h.uniform hi hoff hcur hpos
    hn (by rw [← h.capacity]; omega) (Nat.le_add_left _ _)
  refine ⟨{ b with
    m_position := b.m_position + n
    m_cur := b.nodes.cursor b.m_baseSize (b.m_position + n) }, ?_,
    ⟨h.uniform, h.root, h.capacity, ?_, hsize, ?_⟩, rfl, rfl, rfl, rfl⟩
  · rw [read, if_neg (by unfold getReadSize; omega), hcur]
    simp only [bind, Except.bind, hd, hm]
    rw [hrun, List.nil_append]
  · dsimp only
    omega
  · dsimp only
    rw [Chain.cursor, h.capacity]

theorem setPosition_spec {v : Nat} (hv : v ≤ b.m_capacity) :
    ∃ b', b.setPosition v = .ok b' ∧ Inv b' ∧ b'.m_baseSize = b.m_baseSize ∧
      b'.m_position = v ∧ b'.m_size = max b.m_size v ∧ b'.nodes = b.nodes := by
  have hsize := h.size_le
  obtain ⟨j, r, hseek, hj, hr, heq⟩ := seekLoop_spec h.uniform b.nodes.length (i := 0) (v := v)
    h.root_lt (by rw [← h.capacity]; omega) (by omega)
  have hpass := h.uniform.pass_at hj r hr
  rw [heq, Nat.zero_mul, Nat.zero_add] at hpass
  refine ⟨{ b with
    m_position := v
    m_size := max b.m_size v
    m_cur := b.nodes.cursor b.m_baseSize v }, ?_,
    ⟨h.uniform, h.root, h.capacity, ?_, ?_, ?_⟩, rfl, rfl, rfl, rfl⟩
  · rw [setPosition, if_neg (by omega)]
    dsimp only
    split
    · rename_i hgt
      rw [Nat.max_eq_right (by omega)]
      simp only [bind, Except.bind, hseek, hpass]
    · rename_i hgt
      rw [Nat.max_eq_left (by omega)]
      simp only [bind, Except.bind, hseek, hpass]
  · exact Nat.le_max_right _ _
  · exact Nat.max_le.mpr ⟨hsize, hv⟩
  · dsimp only
    rw [Chain.cursor, h.capacity]

theorem clear_spec : Inv b.clear ∧ b.clear.nodes.bytes = b.nodes.bytes.take b.m_baseSize := by
  have hbase := h.uniform.base_pos
  have hlen : (b.nodes.take 1).length = 1 := by
    have := h.root_lt
    rw [List.length_take]
    omega
  refine ⟨⟨⟨hbase, fun n hn => h.uniform.blocks n (List.mem_of_mem_take hn)⟩,
    List.ne_nil_of_length_pos (by rw [clear, hlen]; omega), ?_, Nat.le_refl _, Nat.zero_le _, ?_⟩,
    ?_⟩
  · simp only [clear, hlen, Nat.mul_one]
  · simp only [clear, Nat.zero_div]
    rw [if_neg (by omega)]
  · obtain ⟨n, ns, hns⟩ := List.exists_cons_of_ne_nil h.root
    have hn : n.ptr.length = b.m_baseSize := h.uniform.blocks n (hns ▸ List.mem_cons_self)
    simp only [clear, hns, Chain.bytes, List.take_succ_cons, List.take_zero, List.map_cons,
      List.map_nil, List.flatten_cons, List.flatten_nil, List.append_nil]
    rw [List.take_left' hn]

end Inv

theorem new_inv (junk : Nat → UInt8) {B : Nat} (hB : 1 ≤ B) : Inv (new junk B) where
  uniform := ⟨hB, by simp [new]⟩
  root := by simp [new]
  capacity := by simp [new]
  position_le := Nat.le_refl _
  size_le := Nat.zero_le _
  cur := by
    simp only [new, Nat.zero_div]
    rw [if_neg (by omega)]

end ByteArray

end Captain
