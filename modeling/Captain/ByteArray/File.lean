import Captain.ByteArray.Transfer

/-!
# `writeToFile` and `readFromFile`

`writeToFile` writes a range of each node from the cursor on. It takes for the length of a range
what is left to write, or the block size if that is less, and subtracts the offset in the node, so
that a remainder of less than a block that does not begin a node is cut short.

`writeToFile_iff`: the file holds the bytes from the position to the size if and only if there are
none, or the position begins a node, or there is a block size of them or more and the offset in the
node is an `int`.
-/

namespace Captain.ByteArray

open Chunks Transition

/-- `std::ofstream`, opened with `trunc`: the ranges of the blocks that have been written to it, one
after the other, and whether a write has failed. -/
structure Ofstream where
  written : List Iovec := []
  bad : Bool := false
  deriving DecidableEq, Repr

/-- `ofs.write(cur->ptr + diff, len)`; a negative number of bytes is a failure. -/
def Ofstream.write (ofs : Ofstream) (ns : Chain) (cur : Option Nat) (diff len : Int) :
    Except Fault Ofstream := do
  let node ← ns.deref cur
  if ofs.bad ∨ len = 0 then .ok ofs
  else if len < 0 then .ok { ofs with bad := true }
  else if 0 ≤ diff ∧ diff + len ≤ node.size then
    .ok { ofs with written := ofs.written ++ [⟨cur, diff.toNat, len.toNat⟩] }
  else .error .outOfBlock

/-- `int diff = pos % m_baseSize;` -/
def fileDiff (m_baseSize : Nat) (pos : Int) : Int := (pos % m_baseSize).bmod (2 ^ 32)

/-- `int64_t len = (read_size > (int64_t)m_baseSize ? m_baseSize : read_size) - diff;` -/
def fileLen (m_baseSize : Nat) (pos read_size : Int) : Int :=
  (if read_size > m_baseSize then (m_baseSize : Int) else read_size) - fileDiff m_baseSize pos

/-- The loop of `writeToFile`. Every turn moves `cur` on. -/
def toFileLoop (ns : Chain) (m_baseSize : Nat) : Nat → Option Nat → Int → Int → Ofstream →
    Except Fault Ofstream
  | 0, _, _, _, _ => .error .turns
  | turns + 1, cur, pos, read_size, ofs =>
    if read_size > 0 then do
      let ofs ← ofs.write ns cur (fileDiff m_baseSize pos) (fileLen m_baseSize pos read_size)
      let cur ← ns.next cur
      toFileLoop ns m_baseSize turns cur (pos + fileLen m_baseSize pos read_size)
        (read_size - fileLen m_baseSize pos read_size) ofs
    else .ok ofs

/-- `ByteArray::writeToFile`, which is `const`: `none` if the file cannot be opened. -/
def writeToFile (b : ByteArray) (opens : Bool) : Except Fault (Option Ofstream) :=
  if opens then
    (toFileLoop b.nodes b.m_baseSize (b.nodes.length + 1) b.m_cur b.m_position b.getReadSize {}).map
      some
  else .ok none

/-- The loop of `readFromFile`; `rest` is what is left of the file. A read that comes short meets
the end of the file. -/
def fromFileLoop (junk : Nat → Nat → UInt8) : Nat → ByteArray → List UInt8 → Except Fault ByteArray
  | 0, _, _ => .error .turns
  | turns + 1, b, rest => do
    let c ← b.write junk (rest.take b.m_baseSize)
    if rest.length < b.m_baseSize then .ok c
    else fromFileLoop junk turns c (rest.drop b.m_baseSize)

/-- `ByteArray::readFromFile`: `none` for a file that cannot be opened. -/
def readFromFile (b : ByteArray) (junk : Nat → Nat → UInt8) :
    Option (List UInt8) → Except Fault (ByteArray × Bool)
  | none => .ok (b, false)
  | some file => (fromFileLoop junk (file.length + 1) b file).map fun c => (c, true)

/-- `ByteArray::toString`. -/
def toString (b : ByteArray) : Except Fault (List UInt8) :=
  if b.getReadSize = 0 then .ok [] else b.readAt b.getReadSize b.m_position

/-! ## Ranges that are written -/

/-- The rest of the file, once the position begins a node. -/
theorem toFileLoop_aligned {ns : Chain} {B : Nat} (h : ns.Uniform B) (turns : Nat) :
    ∀ {i r : Nat} (ofs : Ofstream), ofs.bad = false → i * B + r ≤ B * ns.length → i ≤ ns.length →
      ns.length + 1 ≤ i + turns →
      ∃ vs, toFileLoop ns B turns (ns.cursor B (i * B)) ((i * B : Nat) : Int) (r : Int) ofs =
          .ok { ofs with written := ofs.written ++ vs } ∧
        Tiles ns.length B vs (i * B) r := by
  induction turns with
  | zero =>
    intro i r ofs _ _ hi hturns
    omega
  | succ turns ih =>
    intro i r ofs hbad hfit hi hturns
    rcases Nat.eq_zero_or_pos r with rfl | hr
    · refine ⟨[], ?_, .nil _⟩
      rw [toFileLoop, if_neg (by omega), List.append_nil]
    · have hbase := h.base_pos
      have hlt : i < ns.length := by
        apply Nat.lt_of_le_of_ne hi
        rintro rfl
        rw [Nat.mul_comm] at hfit
        omega
      have hcur := h.cursor_at hlt hbase
      rw [Nat.add_zero] at hcur
      obtain ⟨n, -, hd, hsize⟩ := h.deref_at hlt
      have hdiff : fileDiff B ((i * B : Nat) : Int) = 0 := by
        rw [fileDiff, Nat.cast_mul, Int.mul_emod_left]
        rfl
      have hlen : fileLen B ((i * B : Nat) : Int) r = ((min r B : Nat) : Int) := by
        rw [fileLen, hdiff]
        split <;> omega
      have hwrite : ofs.write ns (some i) 0 ((min r B : Nat) : Int) =
          .ok { ofs with written := ofs.written ++ [⟨some i, 0, min r B⟩] } := by
        simp only [Ofstream.write, bind, Except.bind, hd, hbad, hsize]
        rw [if_neg (by simp; omega), if_neg (by omega), if_pos (by omega)]
        rfl
      rw [toFileLoop, if_pos (by omega), hdiff, hlen, hcur, hwrite]
      simp only [bind, Except.bind, h.next_at hlt]
      by_cases hbig : B ≤ r
      · have hmul : (i + 1) * B = i * B + B := by ring
        have hpos : ((i * B : Nat) : Int) + ((min r B : Nat) : Int) = (((i + 1) * B : Nat) : Int) :=
          by omega
        have hrest : (r : Int) - ((min r B : Nat) : Int) = ((r - B : Nat) : Int) := by omega
        obtain ⟨vs, hrun, htiles⟩ := ih (i := i + 1) (r := r - B)
          { ofs with written := ofs.written ++ [⟨some i, 0, min r B⟩] } hbad (by omega) hlt
          (by omega)
        refine ⟨⟨some i, 0, min r B⟩ :: vs, ?_, ?_⟩
        · rw [hpos, hrest, hrun, List.append_assoc, List.singleton_append]
        · have hsum : r = min r B + (r - B) := by omega
          nth_rewrite 2 [hsum]
          refine .cons hlt (by omega) (by omega : 0 + min r B ≤ B) ?_
          rwa [Nat.add_zero, Nat.min_eq_right hbig, ← hmul]
      · refine ⟨[⟨some i, 0, min r B⟩], ?_, ?_⟩
        · obtain ⟨turns, rfl⟩ := Nat.exists_eq_succ_of_ne_zero (n := turns) (by omega)
          rw [toFileLoop, if_neg (by omega)]
        · rw [Nat.min_eq_left (by omega)]
          exact .cons hlt hr (by omega : 0 + r ≤ B) (.nil _)

/-- A file that begins inside a node, with the rest of it. -/
theorem toFileLoop_inside {ns : Chain} {B : Nat} (h : ns.Uniform B) {i o r : Nat}
    (hi : i < ns.length) (ho : o < B) (hint : o < 2 ^ 31) (hle : B ≤ r)
    (hfit : i * B + o + r ≤ B * ns.length) :
    ∃ vs, toFileLoop ns B (ns.length + 1) (some i) ((i * B + o : Nat) : Int) (r : Int) {} =
        .ok { written := vs } ∧
      Tiles ns.length B vs (i * B + o) r := by
  obtain ⟨n, -, hd, hsize⟩ := h.deref_at hi
  have hmul : (i + 1) * B = i * B + B := by ring
  have hdiff : fileDiff B ((i * B + o : Nat) : Int) = (o : Int) := by
    have hmod : (i * B + o) % B = o := by
      rw [Nat.add_comm, Nat.add_mul_mod_self_right, Nat.mod_eq_of_lt ho]
    rw [fileDiff, ← Int.natCast_emod, hmod]
    exact Int.bmod_eq_of_le (by omega) (by omega)
  have hlen : fileLen B ((i * B + o : Nat) : Int) r = ((B - o : Nat) : Int) := by
    rw [fileLen, hdiff]
    split <;> omega
  have hwrite : Ofstream.write {} ns (some i) (o : Int) ((B - o : Nat) : Int) =
      .ok { written := [⟨some i, o, B - o⟩] } := by
    simp only [Ofstream.write, bind, Except.bind, hd, hsize]
    rw [if_neg (by simp; omega), if_neg (by omega), if_pos (by omega)]
    rfl
  have hpos : ((i * B + o : Nat) : Int) + ((B - o : Nat) : Int) = (((i + 1) * B : Nat) : Int) := by
    omega
  have hrest : (r : Int) - ((B - o : Nat) : Int) = ((r - (B - o) : Nat) : Int) := by omega
  obtain ⟨vs, hrun, htiles⟩ := toFileLoop_aligned h ns.length (i := i + 1) (r := r - (B - o))
    { written := [⟨some i, o, B - o⟩] } rfl (by omega) hi (by omega)
  refine ⟨⟨some i, o, B - o⟩ :: vs, ?_, ?_⟩
  · rw [toFileLoop, if_pos (by omega), hdiff, hlen, hwrite]
    simp only [bind, Except.bind, h.next_at hi]
    rw [hpos, hrest, hrun, List.singleton_append]
  · have hsum : r = B - o + (r - (B - o)) := by omega
    have hend : i * B + o + (B - o) = (i + 1) * B := by omega
    rw [hsum]
    refine .cons hi (by omega) (by omega) ?_
    rwa [hend]

/-! ## What a turn does -/

theorem Ofstream.write_cases {ofs ofs' : Ofstream} {ns : Chain} {cur : Option Nat} {diff len : Int}
    (h : ofs.write ns cur diff len = .ok ofs') :
    ofs' = ofs ∧ (ofs.bad = true ∨ len = 0) ∨
    ofs.bad = false ∧ len < 0 ∧ ofs' = { ofs with bad := true } ∨
    ofs.bad = false ∧ 0 < len ∧ 0 ≤ diff ∧
      ofs' = { ofs with written := ofs.written ++ [⟨cur, diff.toNat, len.toNat⟩] } := by
  obtain ⟨node, -, h⟩ := bind_ok h
  split at h
  · rename_i hor
    cases h
    exact Or.inl ⟨rfl, hor⟩
  · rename_i hor
    obtain ⟨hbad, hlen⟩ := not_or.mp hor
    rw [Bool.not_eq_true] at hbad
    split at h
    · cases h
      exact Or.inr (Or.inl ⟨hbad, ‹_›, rfl⟩)
    · split at h
      · rename_i hin
        cases h
        exact Or.inr (Or.inr ⟨hbad, by omega, hin.1, rfl⟩)
      · cases h

theorem toFileLoop_written {ns : Chain} {B : Nat} (turns : Nat) : ∀ {cur : Option Nat} {pos r : Int}
    {ofs ofs' : Ofstream}, toFileLoop ns B turns cur pos r ofs = .ok ofs' →
      ofs.written <+: ofs'.written ∧ (ofs.bad = true → ofs'.written = ofs.written) := by
  induction turns with
  | zero => exact fun h => nomatch h
  | succ turns ih =>
    intro cur pos r ofs ofs' h
    rw [toFileLoop] at h
    split at h
    · obtain ⟨ofs₁, hwrite, h⟩ := bind_ok h
      obtain ⟨cur', -, h⟩ := bind_ok h
      obtain ⟨hpre, hsame⟩ := ih h
      rcases Ofstream.write_cases hwrite with ⟨rfl, -⟩ | ⟨hbad, -, rfl⟩ | ⟨hbad, -, -, rfl⟩
      · exact ⟨hpre, hsame⟩
      · exact ⟨hpre, fun hnot => absurd (hbad.symm.trans hnot) Bool.false_ne_true⟩
      · exact ⟨(List.prefix_append _ _).trans hpre,
          fun hnot => absurd (hbad.symm.trans hnot) Bool.false_ne_true⟩
    · cases h
      exact ⟨List.prefix_rfl, fun _ => rfl⟩

/-- With a range of no bytes the loop runs off the nodes. -/
theorem toFileLoop_stuck {ns : Chain} {B : Nat} {pos r : Int} (hr : 0 < r)
    (hlen : fileLen B pos r = 0) (turns : Nat) : ∀ {cur : Option Nat} {ofs ofs' : Ofstream},
      toFileLoop ns B turns cur pos r ofs ≠ .ok ofs' := by
  induction turns with
  | zero => exact fun h => nomatch h
  | succ turns ih =>
    intro cur ofs ofs' h
    rw [toFileLoop, if_pos hr, hlen, Int.add_zero, Int.sub_zero] at h
    obtain ⟨ofs₁, -, h⟩ := bind_ok h
    obtain ⟨cur', -, h⟩ := bind_ok h
    exact ih h

/-- A turn of a loop that ends, on a good stream: nothing more is written, or the range of the turn
is. -/
theorem toFileLoop_turn {ns : Chain} {B turns : Nat} {cur : Option Nat} {pos r : Int}
    {ofs ofs' : Ofstream} (h : toFileLoop ns B (turns + 1) cur pos r ofs = .ok ofs')
    (hbad : ofs.bad = false) (hr : 0 < r) :
    ofs'.written = ofs.written ∨
      ∃ diff len : Nat, fileDiff B pos = diff ∧ fileLen B pos r = len ∧ 1 ≤ len ∧
        ofs.written ++ [⟨cur, diff, len⟩] <+: ofs'.written ∧
        ∃ cur', ns.next cur = .ok cur' ∧ toFileLoop ns B turns cur' (pos + len) (r - len)
          { ofs with written := ofs.written ++ [⟨cur, diff, len⟩] } = .ok ofs' := by
  have hstuck : fileLen B pos r ≠ 0 := fun hlen => toFileLoop_stuck hr hlen _ h
  rw [toFileLoop, if_pos hr] at h
  obtain ⟨ofs₁, hwrite, h⟩ := bind_ok h
  obtain ⟨cur', hnext, h⟩ := bind_ok h
  rcases Ofstream.write_cases hwrite with ⟨rfl, hor⟩ | ⟨-, -, rfl⟩ | ⟨-, hlen, hdiff, rfl⟩
  · exact absurd hor (not_or.mpr ⟨by simp [hbad], hstuck⟩)
  · exact Or.inl ((toFileLoop_written turns h).2 rfl)
  · refine Or.inr ⟨(fileDiff B pos).toNat, (fileLen B pos r).toNat, by omega, by omega, by omega,
      (toFileLoop_written turns h).1, cur', hnext, ?_⟩
    rw [Int.toNat_of_nonneg (Int.le_of_lt hlen)]
    exact h

/-! ## When the file is right -/

theorem Tiles.eq_zero {count B p n : Nat} (h : Tiles count B [] p n) : n = 0 := by
  cases h
  rfl

theorem Tiles.tail {count B p n : Nat} {v : Iovec} {vs : List Iovec}
    (h : Tiles count B (v :: vs) p n) : ∃ i, v.node = some i ∧ i * B + v.off = p ∧ v.iov_len ≤ n ∧
      Tiles count B vs (p + v.iov_len) (n - v.iov_len) := by
  cases h with
  | cons hi hm hoff rest =>
    refine ⟨_, rfl, rfl, Nat.le_add_right _ _, ?_⟩
    rwa [Nat.add_sub_cancel_left]

/-- The ranges that `writeToFile` is to write. -/
def Covers (b : ByteArray) (ofs : Ofstream) : Prop :=
  Tiles b.nodes.length b.m_baseSize ofs.written b.m_position b.getReadSize

/-- Nothing is to be written, or the position begins a node, or there is a block size or more. -/
def Straight (b : ByteArray) : Prop :=
  b.m_position = b.m_size ∨ b.m_position % b.m_baseSize < 2 ^ 31 ∧
    (b.m_position % b.m_baseSize = 0 ∨ b.m_baseSize ≤ b.m_size - b.m_position)

namespace Inv

variable {b : ByteArray} (h : Inv b)
include h

theorem writeToFile_of (hs : Straight b) :
    ∃ ofs, b.writeToFile true = .ok (some ofs) ∧ Covers b ofs := by
  have hle := h.position_le
  have hsize := h.size_le
  have hloop : ∀ {vs}, toFileLoop b.nodes b.m_baseSize (b.nodes.length + 1) b.m_cur b.m_position
      b.getReadSize {} = .ok { written := vs } →
        b.writeToFile true = .ok (some { written := vs }) := by
    intro vs hrun
    rw [writeToFile, if_pos rfl, hrun]
    rfl
  by_cases hend : b.m_position = b.m_size
  · have hread : b.getReadSize = 0 := by
      unfold getReadSize
      omega
    refine ⟨{}, hloop ?_, ?_⟩
    · rw [hread]
      rfl
    · rw [Covers, hread]
      exact .nil _
  · obtain ⟨hint, hor⟩ := hs.resolve_left hend
    obtain ⟨hi, hoff, hcur, hpos⟩ := h.start (by omega)
    have hfit : b.m_position + b.getReadSize ≤ b.m_baseSize * b.nodes.length := by
      rw [← h.capacity]
      unfold getReadSize
      omega
    by_cases hzero : b.m_position % b.m_baseSize = 0
    · rw [hzero, Nat.add_zero] at hpos
      obtain ⟨vs, hrun, htiles⟩ := toFileLoop_aligned h.uniform (b.nodes.length + 1)
        (i := b.m_position / b.m_baseSize) (r := b.getReadSize) {} rfl (by rw [← hpos]; exact hfit)
        (Nat.le_of_lt hi) (Nat.le_add_left _ _)
      have hcursor := h.uniform.cursor_at hi h.uniform.base_pos
      rw [Nat.add_zero] at hcursor
      rw [hcursor, ← hcur, ← hpos] at hrun
      rw [← hpos] at htiles
      exact ⟨_, hloop hrun, htiles⟩
    · have hbig : b.m_baseSize ≤ b.getReadSize := hor.resolve_left hzero
      obtain ⟨vs, hrun, htiles⟩ := toFileLoop_inside h.uniform hi hoff hint hbig
        (by rw [← hpos]; exact hfit)
      rw [← hcur, ← hpos] at hrun
      rw [← hpos] at htiles
      exact ⟨_, hloop hrun, htiles⟩

theorem straight_of_covers {ofs : Ofstream} (hrun : b.writeToFile true = .ok (some ofs))
    (hc : Covers b ofs) : Straight b := by
  have hle := h.position_le
  have hsize := h.size_le
  by_cases hend : b.m_position = b.m_size
  · exact Or.inl hend
  have hread : b.getReadSize = b.m_size - b.m_position := rfl
  obtain ⟨hi, hoff, hcur, hpos⟩ := h.start (by omega)
  unfold Covers at hc
  rw [writeToFile, if_pos rfl, hcur] at hrun
  obtain ⟨ofs₁, hloop, hrun⟩ := bind_ok (f := fun a => .ok (some a)) hrun
  cases hrun
  generalize hi' : b.m_position / b.m_baseSize = i at hi hcur hpos hloop
  generalize ho' : b.m_position % b.m_baseSize = o at hoff hpos
  rcases toFileLoop_turn hloop rfl (by omega) with hnone |
    ⟨diff, len, hdiff, hlen, hone, ⟨rest, hrest⟩, cur, hnext, hloop⟩
  · rw [hnone] at hc
    have := hc.eq_zero
    omega
  · -- the first range begins at the position
    rw [← hrest] at hc
    obtain ⟨j, hj, hstart, hlen', hc'⟩ := hc.tail
    cases hj
    dsimp only at hstart hlen' hc'
    have hdo : diff = o := by omega
    subst hdo
    have hint : diff < 2 ^ 31 := by
      have hlt : fileDiff b.m_baseSize b.m_position < (2 ^ 32 + 1) / 2 := Int.bmod_lt (by decide)
      omega
    refine Or.inr ⟨ho'.symm ▸ hint, ?_⟩
    by_cases hzero : diff = 0
    · exact Or.inl (ho'.trans hzero)
    by_cases hbig : b.m_baseSize ≤ b.m_size - b.m_position
    · exact Or.inr hbig
    -- a second range would begin in the next node
    rw [fileLen, hdiff, if_neg (by omega)] at hlen
    obtain ⟨turns, hturns⟩ := Nat.exists_eq_succ_of_ne_zero h.root_lt.ne'
    rw [hturns] at hloop
    rcases toFileLoop_turn hloop rfl (by omega) with hnone |
      ⟨diff', len', -, -, -, ⟨rest', hrest'⟩, -⟩
    · rw [← hrest] at hnone
      have hnil : rest = [] := by simpa using hnone
      rw [hnil] at hc'
      have := hc'.eq_zero
      omega
    · have hcons : rest = ⟨cur, diff', len'⟩ :: rest' := by
        rw [← hrest] at hrest'
        simpa using hrest'.symm
      rw [hcons] at hc'
      obtain ⟨j, hj, hstart', -⟩ := hc'.tail
      dsimp only at hj hstart'
      rw [Chain.next] at hnext
      cases hnext
      split at hj
      · cases hj
        have hmul : (i + 1) * b.m_baseSize = i * b.m_baseSize + b.m_baseSize := by ring
        omega
      · cases hj

/-! ## Reading the file back -/

theorem toString_eq : b.toString = .ok (slice b.nodes.bytes b.m_position b.getReadSize) := by
  have hle := h.position_le
  have hsize := h.size_le
  rw [toString]
  split
  · rename_i hzero
    rw [hzero, slice, List.take_zero]
  · rename_i hzero
    have hdm := Nat.div_add_mod b.m_position b.m_baseSize
    have hat := h.readAt_spec b.getReadSize b.m_position
    rw [Nat.mul_comm] at hdm
    unfold getReadSize at hzero hat ⊢
    rw [hdm, if_neg (by omega), if_neg (by omega), if_pos (by omega)] at hat
    exact hat

/-- On a block edge there is room for a block, or none and it is added. -/
theorem room_of_edge (hedge : b.m_position % b.m_baseSize = 0) (junk : Nat → Nat → UInt8) {n : Nat}
    (hn : n ≤ b.m_baseSize) : n ≤ (b.addCapacity junk n).getCapacity := by
  apply (h.room_iff junk n).mpr
  have hcap : b.getCapacity % b.m_baseSize = 0 := by
    unfold getCapacity
    rw [h.capacity]
    obtain ⟨q, hq⟩ := Nat.dvd_of_mod_eq_zero hedge
    rw [hq, ← Nat.mul_sub, Nat.mul_mod_right]
  obtain ⟨q, hq⟩ := Nat.dvd_of_mod_eq_zero hcap
  rcases Nat.eq_zero_or_pos q with rfl | hpos
  · rw [Fits, hq]
    omega
  · have := Nat.le_mul_of_pos_right b.m_baseSize hpos
    exact Or.inl (by omega)

theorem fromFileLoop_spec (junk : Nat → Nat → UInt8) (turns : Nat) (rest : List UInt8)
    (hend : b.m_position = b.m_size) (hedge : b.m_position % b.m_baseSize = 0)
    (hturns : rest.length < turns) :
    ∃ c, fromFileLoop junk turns b rest = .ok c ∧ Inv c ∧
      c.nodes.bytes.take c.m_size = b.nodes.bytes.take b.m_size ++ rest := by
  induction turns generalizing b rest with
  | zero => exact absurd hturns (Nat.not_lt_zero _)
  | succ turns ih =>
    have hbase := h.uniform.base_pos
    rw [fromFileLoop]
    rcases Nat.eq_zero_or_pos rest.length with hzero | hpos
    · obtain rfl : rest = [] := List.length_eq_zero_iff.mp hzero
      refine ⟨b, ?_, h, (List.append_nil _).symm⟩
      rw [List.take_nil, write_nil]
      exact if_pos hbase
    · have hlen : (rest.take b.m_baseSize).length = min b.m_baseSize rest.length :=
        List.length_take
      obtain ⟨c, fresh, hrun, h', hbase', hpos', hsize', hroom, hbytes⟩ :=
        h.write_spec junk (by omega : 1 ≤ (rest.take b.m_baseSize).length)
          (h.room_of_edge hedge junk (by omega))
      have hle : b.m_size ≤ b.nodes.bytes.length := h.length_bytes ▸ h.size_le
      have htake : c.nodes.bytes.take c.m_size =
          b.nodes.bytes.take b.m_size ++ rest.take b.m_baseSize := by
        rw [hbytes, hsize', hend, overwrite, List.take_append_of_le_length hle]
        apply List.take_left'
        rw [List.length_append, List.length_take, Nat.min_eq_left hle, Nat.max_eq_right]
        exact Nat.le_add_right _ _
      rw [hrun]
      simp only [bind, Except.bind]
      split
      · rename_i hlast
        refine ⟨c, rfl, h', ?_⟩
        rw [htake, List.take_of_length_le (Nat.le_of_lt hlast)]
      · rename_i hmore
        have hedge' : c.m_position % c.m_baseSize = 0 := by
          rw [hpos', hlen, Nat.min_eq_left (by omega), hbase', Nat.add_mod_right]
          exact hedge
        obtain ⟨c', hrun', h'', htake'⟩ := ih h' (rest.drop b.m_baseSize) (by omega) hedge' (by
             rw [List.length_drop]; omega)
        refine ⟨c', hrun', h'', ?_⟩
        rw [htake', htake, List.append_assoc, List.take_append_drop]

end Inv

theorem readFromFile_new {B : Nat} (hB : 1 ≤ B) (junk₀ : Nat → UInt8) (junk : Nat → Nat → UInt8)
    (file : List UInt8) : ∃ c c', (new junk₀ B).readFromFile junk (some file) = .ok (c, true) ∧
      c.setPosition 0 = .ok c' ∧ c'.toString = .ok file := by
  obtain ⟨c, hrun, h, hbytes⟩ := (new_inv junk₀ hB).fromFileLoop_spec junk
    (file.length + 1) file rfl (Nat.zero_mod _) (Nat.lt_succ_self _)
  obtain ⟨c', hseek, h', -, hpos, hsize, hnodes⟩ := h.setPosition_spec (Nat.zero_le _)
  refine ⟨c, c', ?_, hseek, ?_⟩
  · rw [readFromFile, hrun]
    rfl
  · have hread : c'.getReadSize = c.m_size := by
      unfold getReadSize
      omega
    rw [h'.toString_eq, hnodes, hpos, hread, slice, List.drop_zero, hbytes]
    rfl

/-- What `writeToFile` is for: a file of the bytes from the position on, from which any fresh array
is the same string. -/
def Saves (b : ByteArray) : Prop :=
  ∃ ofs, b.writeToFile true = .ok (some ofs) ∧ Covers b ofs ∧
    ∃ file, gather b.nodes ofs.written = .ok file ∧
      file = slice b.nodes.bytes b.m_position b.getReadSize ∧ b.toString = .ok file ∧
      ∀ (B : Nat) (junk₀ : Nat → UInt8) (junk : Nat → Nat → UInt8), 1 ≤ B →
        ∃ c c', (new junk₀ B).readFromFile junk (some file) = .ok (c, true) ∧
          c.setPosition 0 = .ok c' ∧ c'.toString = b.toString

/-- **Files.** -/
theorem writeToFile_iff {b : ByteArray} (h : Inv b) :
    Saves b ↔ b.m_position = b.m_size ∨ b.m_position % b.m_baseSize < 2 ^ 31 ∧
      (b.m_position % b.m_baseSize = 0 ∨ b.m_baseSize ≤ b.m_size - b.m_position) := by
  constructor
  · rintro ⟨ofs, hrun, hc, -⟩
    exact h.straight_of_covers hrun hc
  · intro hs
    obtain ⟨ofs, hrun, hc⟩ := h.writeToFile_of hs
    refine ⟨ofs, hrun, hc, _, gather_tiles h.uniform hc, rfl, h.toString_eq, ?_⟩
    intro B junk₀ junk hB
    rw [h.toString_eq]
    exact readFromFile_new hB junk₀ junk _

/-- Five bytes in two blocks of four, with the cursor on the third. -/
theorem run_five : Run Moves (new (fun _ => 0) 4)
    [.op (.write (fun _ _ => 0) [1, 2, 3, 4]), .op (.write (fun _ _ => 0) [5]),
      .op (.setPosition 2)] ⟨4, 2, 8, 5, [⟨[1, 2, 3, 4]⟩, ⟨[5, 0, 0, 0]⟩], some 0⟩ :=
  .cons rfl (.cons rfl (.cons rfl (.nil _)))

/-- Of the last three bytes one is written, then a negative number of them, and the loop runs off
the nodes. -/
theorem not_writeToFile : ∃ b, Inv b ∧ b.m_position = 2 ∧ b.m_size = 5 ∧ ¬Saves b ∧
    b.writeToFile true = .error .nullNode := by
  refine ⟨_, (reachable_inv (by decide) run_five).1, rfl, rfl, ?_, rfl⟩
  rintro ⟨ofs, hrun, -⟩
  cases hrun

theorem writeToFile_iff_six : ∃ b, b.m_position = 1 ∧ b.toString = .ok [2, 3, 4, 5, 6] ∧ Saves b :=
  ⟨_, rfl, rfl, (writeToFile_iff (reachable_inv (by decide) run_six).1).mpr (by decide)⟩

end Captain.ByteArray
