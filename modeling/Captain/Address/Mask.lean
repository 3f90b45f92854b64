import Captain.ByteOrder

/-!
# Masks and byte order (`captain/address.cpp`, `captain/include/endian.h`)

`CreateMask` is written for a mask of the host bits. The shift is of an `int`, whose count the
hardware takes modulo 32, so that a 32-bit mask for the prefix length 0 is 0.
-/

namespace Captain

/-- The bits of lowest weight. -/
def lowBits (w k : Nat) : BitVec w := BitVec.ofNat w (2 ^ k - 1)

/-- The `n` leading bits. -/
def leadingBits (w n : Nat) : BitVec w := ~~~lowBits w (w - n)

theorem getLsbD_lowBits {w k i : Nat} (h : i < w) : (lowBits w k).getLsbD i = decide (i < k) := by
  unfold lowBits
  rw [BitVec.getLsbD_ofNat, Nat.testBit_two_pow_sub_one, decide_eq_true h, Bool.true_and]

theorem getLsbD_leadingBits {w n i : Nat} (h : i < w) :
    (leadingBits w n).getLsbD i = decide (w - n ≤ i) := by
  unfold leadingBits
  rw [BitVec.getLsbD_not, getLsbD_lowBits h, decide_eq_true h, Bool.true_and, ← decide_not]
  exact decide_eq_decide.mpr Nat.not_lt

theorem getMsbD_leadingBits {w n i : Nat} (hn : n ≤ w) :
    (leadingBits w n).getMsbD i = decide (i < n) := by
  rw [BitVec.getMsbD_eq_getLsbD]
  by_cases hi : i < w
  · rw [getLsbD_leadingBits (by omega), decide_eq_true hi, Bool.true_and]
    exact decide_eq_decide.mpr (by omega)
  · rw [decide_eq_false hi, Bool.false_and, decide_eq_false (by omega)]

/-- A mask and its complement select the same of nothing only. -/
theorem and_not_eq_iff {w : Nat} {x m : BitVec w} : x &&& m = x &&& ~~~m ↔ x = 0#w := by
  constructor
  · intro h
    apply BitVec.eq_of_getLsbD_eq
    intro i hi
    have hbit := congrArg (fun y : BitVec w => y.getLsbD i) h
    simp only [BitVec.getLsbD_and, BitVec.getLsbD_not, hi, decide_true, Bool.true_and] at hbit
    rw [BitVec.getLsbD_zero]
    cases hx : x.getLsbD i with
    | false => rfl
    | true =>
      rw [hx] at hbit
      cases hm : m.getLsbD i <;> rw [hm] at hbit <;> exact absurd hbit (by decide)
  · rintro rfl
    rw [BitVec.zero_and, BitVec.zero_and]

/-- `(1 << (sizeof(T) * 8 - bits)) - 1` for a `T` of `w` bits. -/
def CreateMask (w bits : Nat) : BitVec w :=
  let count := (2 ^ 64 + w - bits) % 32
  ((1#32 <<< count) - 1#32).setWidth w

theorem shift_sub_one {c : Nat} (h : c < 32) : (1#32 <<< c) - 1#32 = lowBits 32 c := by
  have hlt : 2 ^ c < 2 ^ 32 := Nat.pow_lt_pow_right (by decide) h
  have hpos := Nat.two_pow_pos c
  have hshift : (1#32 <<< c).toNat = 2 ^ c := by
    rw [BitVec.toNat_shiftLeft, BitVec.toNat_ofNat, Nat.shiftLeft_eq,
      Nat.one_mod_eq_one.mpr (by decide), Nat.one_mul, Nat.mod_eq_of_lt hlt]
  unfold lowBits
  apply BitVec.eq_of_toNat_eq
  rw [BitVec.toNat_sub, hshift, BitVec.toNat_ofNat, BitVec.toNat_ofNat]
  omega

theorem CreateMask_eq {n : Nat} (hpos : 0 < n) (hn : n ≤ 32) :
    CreateMask 32 n = lowBits 32 (32 - n) := by
  have hcount : (2 ^ 64 + 32 - n) % 32 = 32 - n := by omega
  unfold CreateMask
  rw [hcount, BitVec.setWidth_eq]
  exact shift_sub_one (by omega)

theorem CreateMask_byte {n : Nat} (hn : n < 8) : CreateMask 8 n = lowBits 8 (8 - n) := by
  have hcount : (2 ^ 64 + 8 - n) % 32 = 8 - n := by omega
  unfold CreateMask
  rw [hcount]
  show ((1#32 <<< (8 - n)) - 1#32).setWidth 8 = _
  rw [shift_sub_one (by omega)]
  apply BitVec.eq_of_getLsbD_eq
  intro i hi
  rw [BitVec.getLsbD_setWidth, decide_eq_true hi, Bool.true_and, getLsbD_lowBits hi,
    getLsbD_lowBits (by omega)]

/-- The number in the other byte order if the host is little endian. -/
def byteswapOnLittleEndian (host : ByteOrder) {w : Nat} (v : BitVec w) : BitVec w :=
  match host with
  | .little => .ofNat w (ByteOrder.swap (w / 8) v.toNat)
  | .big => v

/-- Where `byteswapOnLittleEndian` takes bit `i` from. -/
def bitPlace (host : ByteOrder) (w i : Nat) : Nat :=
  match host with
  | .little => 8 * (w / 8 - 1 - i / 8) + i % 8
  | .big => i

section

variable {host : ByteOrder} {w i : Nat}

theorem bitPlace_lt (hw : 8 ∣ w) (h : i < w) : bitPlace host w i < w := by
  obtain ⟨n, rfl⟩ := hw
  cases host with
  | little =>
    show 8 * (8 * n / 8 - 1 - i / 8) + i % 8 < 8 * n
    omega
  | big => exact h

theorem bitPlace_bitPlace (hw : 8 ∣ w) (h : i < w) :
    bitPlace host w (bitPlace host w i) = i := by
  obtain ⟨n, rfl⟩ := hw
  cases host with
  | little =>
    show 8 * (8 * n / 8 - 1 - (8 * (8 * n / 8 - 1 - i / 8) + i % 8) / 8) +
      (8 * (8 * n / 8 - 1 - i / 8) + i % 8) % 8 = i
    omega
  | big => rfl

theorem getLsbD_byteswap (hw : 8 ∣ w) (v : BitVec w) (h : i < w) :
    (byteswapOnLittleEndian host v).getLsbD i = v.getLsbD (bitPlace host w i) := by
  cases host with
  | little =>
    unfold byteswapOnLittleEndian bitPlace
    rw [BitVec.getLsbD_ofNat, decide_eq_true h, Bool.true_and, ByteOrder.testBit_swap (by omega)]
    rfl
  | big => rfl

theorem byteswap_byteswap (hw : 8 ∣ w) (v : BitVec w) :
    byteswapOnLittleEndian host (byteswapOnLittleEndian host v) = v := by
  apply BitVec.eq_of_getLsbD_eq
  intro i hi
  rw [getLsbD_byteswap hw _ hi, getLsbD_byteswap hw _ (bitPlace_lt hw hi),
    bitPlace_bitPlace hw hi]

theorem byteswap_and (hw : 8 ∣ w) (a b : BitVec w) :
    byteswapOnLittleEndian host (a &&& b) =
      byteswapOnLittleEndian host a &&& byteswapOnLittleEndian host b := by
  apply BitVec.eq_of_getLsbD_eq
  intro i hi
  simp only [BitVec.getLsbD_and, getLsbD_byteswap hw _ hi]

theorem byteswap_or (hw : 8 ∣ w) (a b : BitVec w) :
    byteswapOnLittleEndian host (a ||| b) =
      byteswapOnLittleEndian host a ||| byteswapOnLittleEndian host b := by
  apply BitVec.eq_of_getLsbD_eq
  intro i hi
  simp only [BitVec.getLsbD_or, getLsbD_byteswap hw _ hi]

theorem byteswap_not (hw : 8 ∣ w) (a : BitVec w) :
    byteswapOnLittleEndian host (~~~a) = ~~~byteswapOnLittleEndian host a := by
  apply BitVec.eq_of_getLsbD_eq
  intro i hi
  simp only [BitVec.getLsbD_not, getLsbD_byteswap hw _ hi, bitPlace_lt hw hi, hi]

end

end Captain
