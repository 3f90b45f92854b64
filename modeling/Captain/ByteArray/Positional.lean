import Captain.ByteArray.Capacity

/-!
# The overloads that take a position

`read(buf, size, position)` and `getReadBuffers(buffers, len, position)` are to do at `position`
what their namesakes do at the cursor. Both bound the length by what there is to read from the
cursor on, and the first also starts at the cursor's node.

* `getReadBuffersAt_iff`: the segments are those of the bytes from the position on if and only if
  the position is the cursor, or the length reaches beyond the data from neither.
* `readAt_iff`: the bytes are those from the position on if and only if the cursor has as many to
  read, it stands on a node, and the bytes found from that node on are the same.
-/

namespace Captain

open Chunks Transition

namespace ByteArray

/-! ## Segments -/

theorem min_getReadSize (b : ByteArray) (len : Nat) :
    (if len > b.getReadSize then b.getReadSize else len) = min len b.getReadSize := by
  split <;> omega

theorem skipNodes_at {ns : Chain} {B : Nat} (hu : ns.Uniform B) (count : Nat) :
    ∀ {i : Nat}, i + count < ns.length → skipNodes ns count (some i) = .ok (some (i + count)) := by
  induction count with
  | zero => exact fun _ => rfl
  | succ count ih =>
    intro i hi
    have hcur := hu.cursor_at (i := i + 1) (by omega) hu.base_pos
    rw [Nat.add_zero] at hcur
    rw [skipNodes, hu.next_at (by omega), hcur]
    simp only [bind, Except.bind]
    rw [ih (by omega), Nat.add_right_comm, Nat.add_assoc]

/-- It returns the length that the cursor allows. -/
theorem getReadBuffersAt_length {b : ByteArray} {len p : Nat} {r : List Iovec × Nat}
    (hat : b.getReadBuffersAt len p = .ok r) : r.2 = min len b.getReadSize := by
  rw [getReadBuffersAt, min_getReadSize] at hat
  split at hat
  · rename_i hzero
    cases hat
    exact hzero.symm
  · obtain ⟨cur, -, hat⟩ := bind_ok hat
    obtain ⟨node, -, hat⟩ := bind_ok hat
    obtain ⟨vs, -, hat⟩ := bind_ok hat
    cases hat
    rfl

namespace Inv

variable {b : ByteArray} (h : Inv b)
include h

theorem getReadBuffers_spec (len : Nat) : ∃ vs,
    b.getReadBuffers len = .ok (vs, min len b.getReadSize) ∧
      Tiles b.nodes.length b.m_baseSize vs b.m_position (min len b.getReadSize) := by
  rw [getReadBuffers, min_getReadSize]
  by_cases hzero : min len b.getReadSize = 0
  · exact ⟨[], by rw [if_pos hzero, hzero], hzero ▸ .nil _⟩
  · have hsize := h.size_le
    have hle : min len b.getReadSize ≤ b.getReadSize := Nat.min_le_right _ _
    generalize min len b.getReadSize = n at hzero hle ⊢
    unfold getReadSize at hle
    obtain ⟨hi, hoff, hcur, hpos⟩ := h.start (by omega)
    obtain ⟨m, -, hd, hm⟩ := h.uniform.deref_at hi
    obtain ⟨vs, hrun, htiles⟩ := iovecLoop_tiles h.uniform b.nodes.length _ n [] hi hoff
      (by omega) (by rw [← hpos, ← h.capacity]; omega) (Nat.le_add_left _ _)
    rw [← hpos] at htiles
    refine ⟨vs, ?_, htiles⟩
    rw [if_neg hzero, hcur]
    simp only [bind, Except.bind, hd, hm]
    rw [hrun, List.nil_append]

/-- Where the two overloads agree on the length, they give out the same segments. -/
theorem getReadBuffersAt_eq {b' : ByteArray} (h' : Inv b') {len : Nat}
    (hbase : b'.m_baseSize = b.m_baseSize) (hnodes : b'.nodes = b.nodes)
    (hsize : b'.m_size = b.m_size)
    (hlen : min len b.getReadSize = min len b'.getReadSize) :
    b.getReadBuffersAt len b'.m_position = b'.getReadBuffers len := by
  rw [getReadBuffersAt, getReadBuffers, min_getReadSize, min_getReadSize, hlen]
  by_cases hzero : min len b'.getReadSize = 0
  · rw [if_pos hzero, if_pos hzero]
  · have hle := h'.size_le
    have hlt : b'.m_position < b'.m_size := by
      unfold getReadSize at hzero
      omega
    obtain ⟨hi, -, hcur, -⟩ := h'.start (by omega)
    rw [if_neg hzero, if_neg hzero, hcur, hnodes, hbase]
    rw [hbase, hnodes] at hi
    have hskip := skipNodes_at h.uniform (b'.m_position / b.m_baseSize) (i := 0) (by omega)
    rw [Nat.zero_add] at hskip
    rw [hskip]
    rfl

end Inv

/-- What `getReadBuffers(buffers, len, p)` is for: segments that make up the stored bytes from `p`
on, `len` of them or all there are, as the other overload gives them out after `setPosition(p)`. -/
def SegmentsFrom (b : ByteArray) (len p : Nat) : Prop :=
  ∃ vs, b.getReadBuffersAt len p = .ok (vs, min len (b.m_size - p)) ∧
    Tiles b.nodes.length b.m_baseSize vs p (min len (b.m_size - p)) ∧
    gather b.nodes vs = .ok (slice b.nodes.bytes p (min len (b.m_size - p))) ∧
    ∃ b', b.setPosition p = .ok b' ∧ b'.getReadBuffers len = .ok (vs, min len (b.m_size - p))

/-- **Segments from a position.** -/
theorem getReadBuffersAt_iff {B : Nat} (hB : 1 ≤ B) {junk : Nat → UInt8} {ms : List Move}
    {b : ByteArray} (hrun : Run Moves (new junk B) ms b) (len : Nat) {p : Nat}
    (hp : p ≤ b.m_size) :
    SegmentsFrom b len p ↔
      p = b.m_position ∨ len ≤ b.m_size - b.m_position ∧ len ≤ b.m_size - p := by
  obtain ⟨h, -⟩ := reachable_inv hB hrun
  have hcond : (p = b.m_position ∨ len ≤ b.m_size - b.m_position ∧ len ≤ b.m_size - p) ↔
      min len (b.m_size - b.m_position) = min len (b.m_size - p) := by
    have hle := h.position_le
    omega
  rw [hcond]
  obtain ⟨b', hseek, h', hbase, hpos, hsize, hnodes⟩ :=
    h.setPosition_spec (Nat.le_trans hp h.size_le)
  have hsize' : b'.m_size = b.m_size := by omega
  have hread : b'.getReadSize = b.m_size - p := by rw [getReadSize, hpos, hsize']
  constructor
  · rintro ⟨vs, hat, -⟩
    exact (getReadBuffersAt_length hat).symm
  · intro hlen
    obtain ⟨vs, hvs, htiles⟩ := h'.getReadBuffers_spec len
    rw [hread] at hvs htiles
    rw [hnodes, hbase, hpos] at htiles
    have heq := h.getReadBuffersAt_eq h' hbase hnodes hsize' (hlen.trans (by rw [hread]))
    rw [hpos] at heq
    exact ⟨vs, heq.trans hvs, htiles, gather_tiles h.uniform htiles, b', hseek, hvs⟩

/-- Six bytes in two blocks of four, with the cursor on the second byte. -/
theorem run_six : Run Moves (new (fun _ => 0) 4)
    [.op (.write (fun _ _ => 0) [1, 2, 3, 4]), .op (.write (fun _ _ => 0) [5, 6]),
      .op (.setPosition 1)] ⟨4, 1, 8, 6, [⟨[1, 2, 3, 4]⟩, ⟨[5, 6, 0, 0]⟩], some 0⟩ :=
  .cons rfl (.cons rfl (.cons rfl (.nil _)))

/-- Three bytes from the fifth on, where there are two, and five, which run off the blocks. -/
theorem not_getReadBuffersAt : ∃ ms b, Run Moves (new (fun _ => 0) 4) ms b ∧ 4 ≤ b.m_size ∧
    ¬SegmentsFrom b 3 4 ∧ b.getReadBuffersAt 3 4 = .ok ([⟨some 1, 0, 3⟩], 3) ∧
    b.getReadBuffersAt 5 4 = .error .nullNode := by
  refine ⟨_, _, run_six, by decide, ?_, rfl, rfl⟩
  rintro ⟨vs, hat, -⟩
  cases hat

theorem getReadBuffersAt_iff_two : ∃ b,
    b.getReadBuffersAt 2 3 = .ok ([⟨some 0, 3, 1⟩, ⟨some 1, 0, 1⟩], 2) ∧ SegmentsFrom b 2 3 :=
  ⟨_, rfl, (getReadBuffersAt_iff (by decide) run_six 2 (by decide)).mpr (by decide)⟩

/-! ## Reading -/

/-- The two loops copy the same bytes. -/
theorem readLoop_map (turns : Nat) : ∀ (b : ByteArray) (npos ncap size : Nat) (buf : List UInt8),
    (readLoop turns b npos ncap size buf).map Prod.snd =
      readAtLoop b.nodes turns b.m_cur npos ncap size buf := by
  induction turns with
  | zero => exact fun _ _ _ _ _ => rfl
  | succ turns ih =>
    intro b npos ncap size buf
    rw [readLoop, readAtLoop]
    split
    · rfl
    · split
      · cases hload : b.nodes.load b.m_cur npos size with
        | error e => rfl
        | ok bytes => cases hpass : b.nodes.pass b.m_cur (npos + size) <;> rfl
      · cases hload : b.nodes.load b.m_cur npos ncap with
        | error e => rfl
        | ok bytes =>
          cases hnext : b.nodes.next b.m_cur with
          | error e => rfl
          | ok cur =>
            cases hd : b.nodes.deref cur with
            | error e =>
              simp only [bind, Except.bind, hd]
              rfl
            | ok node =>
              simp only [bind, Except.bind, hd]
              exact ih _ _ _ _ _

theorem readAtLoop_fits {ns : Chain} {B : Nat} (h : ns.Uniform B) {i off size : Nat}
    (hi : i < ns.length) (hoff : off < B) (hsize : 1 ≤ size)
    (hfit : i * B + off + size ≤ B * ns.length) :
    readAtLoop ns ns.length (some i) off (B - off) size [] =
      .ok (slice ns.bytes (i * B + off) size) := by
  have hrun := readLoop_spec ns.length ⟨B, i * B + off, 0, 0, ns, some i⟩ off size [] h hi hoff rfl
    rfl hsize hfit (Nat.le_add_left _ _)
  have hmap := readLoop_map ns.length ⟨B, i * B + off, 0, 0, ns, some i⟩ off (B - off) size []
  rw [hrun] at hmap
  exact hmap.symm

/-- A read that does not end inside the chain runs onto the null node. -/
theorem readAtLoop_short {ns : Chain} {B : Nat} (h : ns.Uniform B) (turns : Nat) :
    ∀ {i : Nat} (off size : Nat) (buf : List UInt8), i < ns.length → off < B →
      B * ns.length < i * B + off + size → ns.length ≤ i + turns →
      readAtLoop ns turns (some i) off (B - off) size buf = .error .nullNode := by
  induction turns with
  | zero =>
    intro i off size buf hi _ _ hturns
    omega
  | succ turns ih =>
    intro i off size buf hi hoff hbig hturns
    have hmul : (i + 1) * B = i * B + B := by ring
    have hend : (i + 1) * B ≤ B * ns.length := by
      rw [Nat.mul_comm B]
      exact Nat.mul_le_mul_right B hi
    have hload := h.load_at hi off (B - off) (by omega)
    rw [readAtLoop, if_neg (by omega), if_neg (by omega)]
    by_cases hlast : i + 1 = ns.length
    · simp only [bind, Except.bind, hload, next_last hlast, Chain.deref]
    · have hi' : i + 1 < ns.length := by omega
      have hcur := h.cursor_at hi' h.base_pos
      rw [Nat.add_zero] at hcur
      obtain ⟨m, -, hd, hm⟩ := h.deref_at hi'
      have hrun := ih 0 (size - (B - off)) (buf ++ slice ns.bytes (i * B + off) (B - off)) hi'
        h.base_pos (by omega) (by omega)
      simp only [bind, Except.bind, hload, h.next_at hi, hcur, hd, hm]
      exact hrun

namespace Inv

variable {b : ByteArray} (h : Inv b)
include h

/-- The position that `read(buf, size, position)` reads from: the offset of `position`, in the node
of the cursor. -/
theorem readAt_spec (n p : Nat) :
    b.readAt n p =
      if b.getReadSize < n then .error (.outOfRange "not enough len")
      else if b.m_position = b.m_capacity then .error .nullNode
      else if b.m_position / b.m_baseSize * b.m_baseSize + p % b.m_baseSize + n ≤ b.m_capacity then
        .ok (slice b.nodes.bytes
          (b.m_position / b.m_baseSize * b.m_baseSize + p % b.m_baseSize) n)
      else .error .nullNode := by
  have hpos := h.position_le
  have hsize := h.size_le
  rw [readAt]
  split
  · rfl
  · by_cases hend : b.m_position = b.m_capacity
    · rw [if_pos hend, h.cur, if_pos hend]
      rfl
    · obtain ⟨hi, -, hcur, -⟩ := h.start (by omega)
      obtain ⟨m, -, hd, hm⟩ := h.uniform.deref_at hi
      have hoff : p % b.m_baseSize < b.m_baseSize := Nat.mod_lt p h.uniform.base_pos
      rw [if_neg hend, hcur]
      simp only [bind, Except.bind, hd, hm]
      rcases Nat.eq_zero_or_pos n with rfl | hn
      · have hlt := Chain.lt_end hi hoff
        rw [h.capacity, if_pos (by omega)]
        obtain ⟨turns, hturns⟩ := Nat.exists_eq_succ_of_ne_zero h.root_lt.ne'
        rw [hturns, readAtLoop, if_pos rfl, slice, List.take_zero]
      · split
        · rename_i hfit
          exact readAtLoop_fits h.uniform hi hoff hn (h.capacity ▸ hfit)
        · rename_i hfit
          exact readAtLoop_short h.uniform _ _ _ _ hi hoff (by rw [← h.capacity]; omega)
            (Nat.le_add_left _ _)

/-- Reading nothing needs a node to stand on. -/
theorem read_zero :
    b.read 0 = if b.m_position = b.m_capacity then .error .nullNode else .ok (b, []) := by
  have hpos := h.position_le
  have hsize := h.size_le
  obtain ⟨turns, hturns⟩ := Nat.exists_eq_succ_of_ne_zero h.root_lt.ne'
  rw [read, if_neg (by omega)]
  by_cases hend : b.m_position = b.m_capacity
  · rw [if_pos hend, h.cur, if_pos hend]
    rfl
  · obtain ⟨hi, -, hcur, -⟩ := h.start (by omega)
    obtain ⟨m, -, hd, -⟩ := h.uniform.deref_at hi
    rw [if_neg hend, hcur]
    simp only [bind, Except.bind, hd]
    rw [hturns, readLoop, if_pos rfl]

end Inv

/-- What `read(buf, n, p)` is for: the stored bytes from `p` on, or the exception when there are not
as many, as the other overload has them after `setPosition(p)`. -/
structure ReadsFrom (b : ByteArray) (n p : Nat) : Prop where
  throws : b.m_size - p < n → b.readAt n p = .error (.outOfRange "not enough len")
  copies : n ≤ b.m_size - p → b.readAt n p = .ok (slice b.nodes.bytes p n)
  agrees : b.readAt n p = ((b.setPosition p).bind fun c => c.read n).map Prod.snd

/-- The plain read after `setPosition(p)`. -/
theorem Inv.seek_read {b : ByteArray} (h : Inv b) (n : Nat) {p : Nat} (hp : p ≤ b.m_size) :
    ((b.setPosition p).bind fun c => c.read n).map Prod.snd =
      if b.m_size - p < n then .error (.outOfRange "not enough len")
      else if n = 0 ∧ p = b.m_capacity then .error .nullNode
      else .ok (slice b.nodes.bytes p n) := by
  obtain ⟨c, hseek, h', -, hpos, hsize, hnodes⟩ := h.setPosition_spec (Nat.le_trans hp h.size_le)
  have hcap : c.m_capacity = b.m_capacity := by
    rw [← h'.length_bytes, ← h.length_bytes, hnodes]
  have hread : c.getReadSize = b.m_size - p := by
    unfold getReadSize
    omega
  rw [hseek, Except.bind]
  by_cases hle : b.m_size - p < n
  · rw [if_pos hle, read, if_pos (by omega)]
    rfl
  · rw [if_neg hle]
    rcases Nat.eq_zero_or_pos n with rfl | hn
    · rw [h'.read_zero, hpos, hcap]
      by_cases hend : p = b.m_capacity
      · rw [if_pos hend, if_pos ⟨rfl, hend⟩]
        rfl
      · rw [if_neg hend, if_neg fun hand => hend hand.2, slice, List.take_zero]
        rfl
    · obtain ⟨c', hrun, -⟩ := h'.read_spec hn (by omega)
      rw [hrun, if_neg (by omega), hpos, hnodes]
      rfl

/-- **Reading at a position.** -/
theorem readAt_iff {B : Nat} (hB : 1 ≤ B) {junk : Nat → UInt8} {ms : List Move} {b : ByteArray}
    (hrun : Run Moves (new junk B) ms b) (n : Nat) {p : Nat} (hp : p ≤ b.m_size) :
    ReadsFrom b n p ↔
      b.m_size - p < n ∧ b.m_size - b.m_position < n ∨
        n ≤ b.m_size - p ∧ n ≤ b.m_size - b.m_position ∧ b.m_position < b.m_capacity ∧
          (1 ≤ n ∨ p < b.m_capacity) ∧
          slice b.nodes.bytes (b.m_position / B * B + p % B) n = slice b.nodes.bytes p n := by
  obtain ⟨h, rfl⟩ := reachable_inv hB hrun
  have hpos := h.position_le
  have hsize := h.size_le
  have hat := h.readAt_spec n p
  have hseek := h.seek_read n hp
  unfold getReadSize at hat
  constructor
  · intro hr
    by_cases hle : b.m_size - p < n
    · refine Or.inl ⟨hle, ?_⟩
      rw [hr.throws hle] at hat
      split at hat
      · assumption
      · split at hat
        · cases hat
        · split at hat <;> cases hat
    · have hcopies := hr.copies (by omega)
      have hagrees := hr.agrees
      rw [hcopies, hseek, if_neg hle] at hagrees
      rw [hcopies] at hat
      refine Or.inr ⟨by omega, ?_⟩
      split at hat
      · cases hat
      · split at hat
        · cases hat
        · split at hat
          · refine ⟨by omega, by omega, ?_, (Except.ok.inj hat).symm⟩
            split at hagrees
            · cases hagrees
            · omega
          · cases hat
  · rintro (⟨hle, hcur⟩ | ⟨hle, hcur, hend, hedge, heq⟩)
    · rw [if_pos hcur] at hat
      rw [if_pos hle] at hseek
      exact ⟨fun _ => hat, fun hn => absurd hle (by omega), hat.trans hseek.symm⟩
    · -- bytes that are there are not found beyond the end of the chain
      have hfit : b.m_position / b.m_baseSize * b.m_baseSize + p % b.m_baseSize + n ≤
          b.m_capacity := by
        have hlength := congrArg List.length heq
        simp only [slice, List.length_take, List.length_drop, h.length_bytes] at hlength
        obtain ⟨hi, -, -, -⟩ := h.start hend
        have hlt := Chain.lt_end hi (Nat.mod_lt p h.uniform.base_pos)
        rw [← h.capacity] at hlt
        omega
      rw [if_neg (by omega), if_neg (by omega), if_pos hfit, heq] at hat
      rw [if_neg (by omega), if_neg (by omega)] at hseek
      exact ⟨fun hn => absurd hn (by omega), fun _ => hat, hat.trans hseek.symm⟩

/-- The sixth byte is looked for in the node of the cursor, and with the cursor at the end nothing
can be read. -/
theorem not_readAt : ∃ ms b, Run Moves (new (fun _ => 0) 4) ms b ∧ 5 ≤ b.m_size ∧
    ¬ReadsFrom b 1 5 ∧ b.readAt 1 5 = .ok [2] := by
  refine ⟨_, _, run_six, by decide, ?_, rfl⟩
  intro hr
  have hcopies := hr.copies (by decide)
  cases hcopies

theorem readAt_iff_two : ∃ b, b.readAt 3 2 = .ok [3, 4, 5] ∧ ReadsFrom b 3 2 :=
  ⟨_, rfl, (readAt_iff (by decide) run_six 3 (by decide)).mpr (by decide)⟩

end ByteArray

end Captain
