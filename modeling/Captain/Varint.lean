import Mathlib.Data.BitVec
import Mathlib.Data.Nat.Size

/-!
# Base-128 integers and the zigzag order of signed integers

`write` splits a number into groups of seven bits, the lowest first, into a buffer with room for so
many bytes; `read` puts the groups of a `w`-bit number together again. Zigzag takes the signed
`w`-bit integers to the unsigned ones so that small absolute values stay small.
-/

namespace Varint

/-- The bytes of `value`, if there is room for them. -/
def write : Nat → Nat → Option (List UInt8)
  | 0, _ => none
  | room + 1, value =>
    if 0x80 ≤ value then (write room (value >>> 7)).map (.ofNat (value &&& 0x7F ||| 0x80) :: ·)
    else some [.ofNat value]

/-- Reads from the bit `i` on; what is left of the bytes comes with the number. -/
def read (w : Nat) : Nat → BitVec w → List UInt8 → Option (BitVec w × List UInt8)
  | i, result, data =>
    if i < w then
      match data with
      | [] => none
      | b :: rest =>
        if b < 0x80 then some (result ||| (BitVec.ofNat w b.toNat) <<< i, rest)
        else read w (i + 7) (result ||| (BitVec.ofNat w (b &&& 0x7F).toNat) <<< i) rest
    else some (result, data)

theorem or_high (value : Nat) : value &&& 0x7F ||| 0x80 = value % 128 + 128 := by
  have hlow : value &&& 0x7F = value % 2 ^ 7 := Nat.and_two_pow_sub_one_eq_mod value 7
  have hlt : value % 2 ^ 7 < 2 ^ 7 := Nat.mod_lt _ (by decide)
  rw [hlow, Nat.or_comm]
  have hor := Nat.two_pow_add_eq_or_of_lt hlt 1
  rw [Nat.mul_one] at hor
  rw [← hor]
  exact Nat.add_comm _ _

/-- The byte of a group that is not the last. -/
theorem toNat_group (value : Nat) :
    (UInt8.ofNat (value &&& 0x7F ||| 0x80)).toNat = value % 128 + 128 := by
  rw [or_high, UInt8.toNat_ofNat']
  omega

theorem toNat_and_7F {b : UInt8} (h : 128 ≤ b.toNat) : (b &&& 0x7F).toNat = b.toNat - 128 := by
  have hb := b.toNat_lt
  rw [UInt8.toNat_and]
  have hmask : (0x7F : UInt8).toNat = 2 ^ 7 - 1 := rfl
  rw [hmask, Nat.and_two_pow_sub_one_eq_mod]
  omega

/-- A group goes above the bits that have been read. -/
theorem toNat_or_shift {w i x : Nat} {result : BitVec w} (hresult : result.toNat < 2 ^ i)
    (hx : x * 2 ^ i < 2 ^ w) :
    (result ||| (BitVec.ofNat w x) <<< i).toNat = result.toNat + x * 2 ^ i := by
  have hxw : x < 2 ^ w := Nat.lt_of_le_of_lt (Nat.le_mul_of_pos_right x (Nat.two_pow_pos i)) hx
  rw [BitVec.toNat_or, BitVec.toNat_shiftLeft, BitVec.toNat_ofNat, Nat.mod_eq_of_lt hxw,
    Nat.shiftLeft_eq, Nat.mod_eq_of_lt hx, Nat.or_comm, Nat.mul_comm x,
    ← Nat.two_pow_add_eq_or_of_lt hresult, Nat.add_comm]

theorem read_last {w i : Nat} (hi : i < w) (result : BitVec w) {b : UInt8} (hb : b.toNat < 128)
    (rest : List UInt8) :
    read w i result (b :: rest) = some (result ||| (BitVec.ofNat w b.toNat) <<< i, rest) := by
  unfold read
  rw [if_pos hi]
  exact if_pos (UInt8.lt_iff_toNat_lt.mpr hb)

theorem read_group {w i : Nat} (hi : i < w) (result : BitVec w) {b : UInt8} (hb : 128 ≤ b.toNat)
    (rest : List UInt8) : read w i result (b :: rest) =
      read w (i + 7) (result ||| (BitVec.ofNat w (b.toNat - 128)) <<< i) rest := by
  rw [read, if_pos hi, ← toNat_and_7F hb]
  exact if_neg fun h => Nat.not_lt.mpr hb (UInt8.lt_iff_toNat_lt.mp h)

/-- The number of bytes that the number at the start of `data` takes; one more than there are, if
they end inside it. -/
def needs (w : Nat) : Nat → List UInt8 → Nat
  | i, data =>
    if i < w then
      match data with
      | [] => 1
      | b :: rest => if b < 0x80 then 1 else needs w (i + 7) rest + 1
    else 0

theorem read_done {w i : Nat} (hi : ¬i < w) (result : BitVec w) (data : List UInt8) :
    read w i result data = some (result, data) := by
  unfold read
  exact if_neg hi

theorem needs_done {w i : Nat} (hi : ¬i < w) (data : List UInt8) : needs w i data = 0 := by
  unfold needs
  exact if_neg hi

theorem read_of_needs {w i : Nat} {result : BitVec w} {data : List UInt8}
    (h : needs w i data ≤ data.length) :
    ∃ v, read w i result data = some (v, data.drop (needs w i data)) := by
  induction data generalizing i result with
  | nil =>
    rw [needs] at h ⊢
    rw [read]
    split
    · rename_i hi
      rw [if_pos hi] at h
      exact absurd h (Nat.not_succ_le_zero 0)
    · exact ⟨result, rfl⟩
  | cons b rest ih =>
    rw [needs] at h ⊢
    rw [read]
    split
    · rename_i hi
      rw [if_pos hi] at h
      split
      · exact ⟨_, rfl⟩
      · rename_i hb
        rw [if_neg hb] at h
        exact ih (Nat.le_of_succ_le_succ h)
    · exact ⟨result, rfl⟩

theorem read_of_short {w i : Nat} {result : BitVec w} {data : List UInt8}
    (h : data.length < needs w i data) : read w i result data = none := by
  induction data generalizing i result with
  | nil =>
    rw [needs] at h
    rw [read]
    split
    · rfl
    · rename_i hi
      rw [if_neg hi] at h
      exact absurd h (Nat.lt_irrefl 0)
  | cons b rest ih =>
    rw [needs] at h
    rw [read]
    split
    · rename_i hi
      rw [if_pos hi] at h
      split
      · rename_i hb
        rw [if_pos hb] at h
        exact absurd h (Nat.not_lt.mpr (Nat.succ_le_succ (Nat.zero_le _)))
      · rename_i hb
        rw [if_neg hb] at h
        exact ih (Nat.lt_of_succ_lt_succ h)
    · rename_i hi
      rw [if_neg hi] at h
      exact absurd h (Nat.not_lt_zero _)

theorem needs_of_read {w i : Nat} {result v : BitVec w} {bytes rest : List UInt8}
    (h : read w i result (bytes ++ rest) = some (v, rest)) :
    needs w i (bytes ++ rest) = bytes.length := by
  rcases Nat.lt_or_ge (bytes ++ rest).length (needs w i (bytes ++ rest)) with hlt | hle
  · rw [read_of_short hlt] at h
    cases h
  · obtain ⟨u, hread⟩ := @read_of_needs w i result _ hle
    rw [h, Option.some.injEq, Prod.mk.injEq] at hread
    have hlength := congrArg List.length hread.2
    rw [List.length_drop] at hlength
    rw [List.length_append] at hlength hle
    omega

/-- A number is read back from what was written, whatever comes after it. -/
theorem read_write {w : Nat} (room : Nat) : ∀ {i : Nat} (value : Nat) (result : BitVec w),
    i < w → result.toNat < 2 ^ i → value * 2 ^ i < 2 ^ w → value < 128 ^ (room + 1) →
    ∃ bytes, write (room + 1) value = some bytes ∧ ∀ rest, ∃ v : BitVec w,
      v.toNat = result.toNat + value * 2 ^ i ∧
        read w i result (bytes ++ rest) = some (v, rest) := by
  have hlast : ∀ (room i value : Nat) (result : BitVec w), i < w → result.toNat < 2 ^ i →
      value * 2 ^ i < 2 ^ w → value < 128 →
      ∃ bytes, write (room + 1) value = some bytes ∧ ∀ rest, ∃ v : BitVec w,
        v.toNat = result.toNat + value * 2 ^ i ∧
          read w i result (bytes ++ rest) = some (v, rest) := by
    intro room i value result hi hresult hvalue hlow
    have hb : (UInt8.ofNat value).toNat = value := by
      rw [UInt8.toNat_ofNat']
      omega
    refine ⟨[.ofNat value], if_neg (by omega), fun rest => ⟨_, toNat_or_shift hresult hvalue, ?_⟩⟩
    rw [List.singleton_append, read_last hi result (by omega), hb]
  induction room with
  | zero => exact fun _ _ hi hresult hvalue hroom => hlast 0 _ _ _ hi hresult hvalue hroom
  | succ room ih =>
    intro i value result hi hresult hvalue hroom
    by_cases hlow : value < 128
    · exact hlast (room + 1) i value result hi hresult hvalue hlow
    · have hdiv : value >>> 7 = value / 128 := Nat.shiftRight_eq_div_pow value 7
      have hpow : (2 : Nat) ^ (i + 7) = 2 ^ i * 128 := Nat.pow_add 2 i 7
      have hsplit : value % 128 * 2 ^ i + value / 128 * 2 ^ (i + 7) = value * 2 ^ i := by
        rw [hpow, Nat.mul_comm (2 ^ i) 128, ← Nat.mul_assoc, ← Nat.add_mul]
        congr 1
        omega
      have hgroup : (UInt8.ofNat (value &&& 0x7F ||| 0x80)).toNat - 128 = value % 128 := by
        rw [toNat_group]
        omega
      have hnext : value % 128 * 2 ^ i < 2 ^ w := by omega
      have hresult' : (result ||| (BitVec.ofNat w (value % 128)) <<< i).toNat < 2 ^ (i + 7) := by
        rw [toNat_or_shift hresult hnext, hpow]
        have hle : value % 128 * 2 ^ i ≤ 127 * 2 ^ i := by
          apply Nat.mul_le_mul_right
          omega
        omega
      have hi' : i + 7 < w := by
        have hone : 2 ^ (i + 7) ≤ value / 128 * 2 ^ (i + 7) := by
          apply Nat.le_mul_of_pos_left
          omega
        exact (Nat.pow_lt_pow_iff_right (by decide)).mp (by omega : 2 ^ (i + 7) < 2 ^ w)
      have hrest : value / 128 * 2 ^ (i + 7) < 2 ^ w := by
        omega
      have hroom' : value / 128 < 128 ^ (room + 1) := by
        rw [Nat.pow_succ] at hroom
        omega
      obtain ⟨bytes, hbytes, hread⟩ := ih (value / 128) _ hi' hresult' hrest hroom'
      refine ⟨.ofNat (value &&& 0x7F ||| 0x80) :: bytes, ?_, fun rest => ?_⟩
      · rw [write, if_pos (by omega), hdiv, hbytes]
        rfl
      · obtain ⟨v, hv, heq⟩ := hread rest
        refine ⟨v, ?_, ?_⟩
        · rw [hv, toNat_or_shift hresult hnext, Nat.add_assoc, hsplit]
        · rw [List.cons_append, read_group hi result (by rw [toNat_group]; omega), hgroup]
          exact heq

/-- A number that fits in `w` bits is read back from what was written, at whatever width, and
whatever comes after it. -/
theorem read_write_ofNat {w : Nat} (hw : 0 < w) (room : Nat) {value : Nat}
    (hvalue : value < 2 ^ w) (hroom : value < 128 ^ (room + 1)) :
    ∃ bytes, write (room + 1) value = some bytes ∧
      ∀ rest, read w 0 0#w (bytes ++ rest) = some (BitVec.ofNat w value, rest) := by
  obtain ⟨bytes, hbytes, hread⟩ := read_write room value 0#w hw
    (by rw [BitVec.toNat_zero]; exact Nat.one_pos) (by omega) hroom
  refine ⟨bytes, hbytes, fun rest => ?_⟩
  obtain ⟨v, hv, heq⟩ := hread rest
  have hsame : v = BitVec.ofNat w value := by
    apply BitVec.eq_of_toNat_eq
    rw [hv, BitVec.toNat_zero, BitVec.toNat_ofNat, Nat.mod_eq_of_lt hvalue]
    omega
  rw [heq, hsame]

/-- A `w`-bit number is read back from what was written, whatever comes after it. -/
theorem read_write_zero {w : Nat} (hw : 0 < w) (room : Nat) (hroom : 2 ^ w ≤ 128 ^ (room + 1))
    (value : BitVec w) : ∃ bytes, write (room + 1) value.toNat = some bytes ∧
      ∀ rest, read w 0 0#w (bytes ++ rest) = some (value, rest) := by
  have hvalue := value.isLt
  have hwrite := read_write_ofNat hw room hvalue (by omega)
  rwa [BitVec.ofNat_toNat, BitVec.setWidth_eq] at hwrite

/-! ## Lengths -/

/-- The number of groups of seven bits that `value` has, at least one. -/
def groups (value : Nat) : Nat := max 1 ((value.size + 6) / 7)

theorem groups_low {value : Nat} (h : value < 128) : groups value = 1 := by
  have hsize : value.size ≤ 7 := Nat.size_le.mpr h
  unfold groups
  omega

theorem size_shiftRight {value : Nat} (h : 128 ≤ value) : value.size = (value >>> 7).size + 7 := by
  have hdiv : value >>> 7 = value / 128 := Nat.shiftRight_eq_div_pow value 7
  have hpow : ∀ k, (2 : Nat) ^ (k + 7) = 2 ^ k * 128 := fun k => Nat.pow_add 2 k 7
  have hseven : 7 < value.size := Nat.lt_size.mpr h
  apply Nat.le_antisymm
  · rw [Nat.size_le, hpow]
    have hlt : value >>> 7 < 2 ^ (value >>> 7).size := Nat.lt_size_self _
    omega
  · have hlt : value < 2 ^ (value.size - 7 + 7) := by
      rw [Nat.sub_add_cancel hseven.le]
      exact Nat.lt_size_self value
    rw [hpow] at hlt
    have hle : (value >>> 7).size ≤ value.size - 7 := by
      rw [Nat.size_le]
      omega
    omega

theorem groups_high {value : Nat} (h : 128 ≤ value) : groups value = groups (value >>> 7) + 1 := by
  have hpos : 0 < (value >>> 7).size := by
    rw [Nat.size_pos, Nat.shiftRight_eq_div_pow]
    exact Nat.div_pos h (by decide)
  unfold groups
  rw [size_shiftRight h]
  omega

theorem length_write {room : Nat} : ∀ {value : Nat} {bytes : List UInt8},
    write room value = some bytes → bytes.length = groups value := by
  induction room with
  | zero =>
    intro value bytes h
    cases h
  | succ room ih =>
    intro value bytes h
    rw [write] at h
    by_cases hvalue : 128 ≤ value
    · rw [if_pos hvalue] at h
      obtain ⟨tail, htail, rfl⟩ := Option.map_eq_some_iff.mp h
      rw [List.length_cons, ih htail, groups_high hvalue]
    · rw [if_neg hvalue] at h
      cases h
      rw [groups_low (Nat.lt_of_not_le hvalue)]
      rfl

theorem groups_le {value n : Nat} (hn : 1 ≤ n) (h : value < 2 ^ (7 * n)) : groups value ≤ n := by
  have hsize : value.size ≤ 7 * n := Nat.size_le.mpr h
  unfold groups
  omega

/-! ## Zigzag -/

variable {w : Nat}

/-- `v` is a signed integer, and its code an unsigned one. -/
def encodeZigzag (v : BitVec w) : BitVec w := if v.slt 0#w then -v * 2#w - 1#w else v * 2#w

def decodeZigzag (v : BitVec w) : BitVec w := (v >>> 1) ^^^ -(v &&& 1#w)

theorem mul_two (v : BitVec w) : v * 2#w = v <<< 1 := by
  have htwo : (2#w : BitVec w) = BitVec.twoPow w 1 := by
    apply BitVec.eq_of_toNat_eq
    rw [BitVec.toNat_twoPow, BitVec.toNat_ofNat]
  rw [htwo, ← BitVec.shiftLeft_eq_mul_twoPow]

/-- The code of a negative integer is the complement of its double. -/
theorem neg_mul_two_sub_one (v : BitVec w) : -v * 2#w - 1#w = ~~~(v <<< 1) := by
  rw [← mul_two, BitVec.not_eq_neg_add, neg_mul]

theorem shiftLeft_and_one (v : BitVec w) : (v <<< 1) &&& 1#w = 0#w := by
  ext i hi
  rw [BitVec.getElem_and, BitVec.getElem_shiftLeft, BitVec.getElem_one, BitVec.getElem_zero]
  by_cases hzero : i = 0 <;> simp [hzero]

theorem not_shiftLeft_and_one (v : BitVec w) : ~~~(v <<< 1) &&& 1#w = 1#w := by
  ext i hi
  rw [BitVec.getElem_and, BitVec.getElem_not, BitVec.getElem_shiftLeft, BitVec.getElem_one]
  by_cases hzero : i = 0 <;> simp [hzero]

/-- Only the sign bit is lost by doubling. -/
theorem getLsbD_shiftLeft_succ (v : BitVec w) {i : Nat} (hi : i + 1 < w) :
    (v <<< 1).getLsbD (1 + i) = v.getLsbD i := by
  have hin : 1 + i < w := by omega
  have hin' : i < w := by omega
  simp [hin, hin', BitVec.getLsbD_eq_getElem]

theorem getLsbD_shiftLeft_last (v : BitVec w) {i : Nat} (hi : ¬i + 1 < w) :
    (v <<< 1).getLsbD (1 + i) = false := by
  have hout : ¬1 + i < w := by omega
  simp [hout]

theorem getLsbD_last {v : BitVec w} {i : Nat} (hi : i < w) (hlast : ¬i + 1 < w) :
    v.getLsbD i = v.msb := by
  have heq : i = w - 1 := by omega
  rw [BitVec.msb_eq_getLsbD_last, heq]

theorem shiftLeft_shiftRight {v : BitVec w} (hv : v.msb = false) : (v <<< 1) >>> 1 = v := by
  ext i hi
  rw [BitVec.getElem_ushiftRight, ← BitVec.getLsbD_eq_getElem]
  by_cases hlast : i + 1 < w
  · exact getLsbD_shiftLeft_succ v hlast
  · rw [getLsbD_shiftLeft_last v hlast, getLsbD_last hi hlast, hv]

theorem not_shiftLeft_shiftRight {v : BitVec w} (hv : v.msb = true) :
    (~~~(v <<< 1)) >>> 1 = ~~~v := by
  ext i hi
  rw [BitVec.getElem_ushiftRight, BitVec.getLsbD_not, BitVec.getElem_not,
    ← BitVec.getLsbD_eq_getElem]
  by_cases hlast : i + 1 < w
  · have hin : 1 + i < w := by omega
    rw [getLsbD_shiftLeft_succ v hlast, decide_eq_true hin, Bool.true_and]
  · have hout : ¬1 + i < w := by omega
    rw [decide_eq_false hout, Bool.false_and, getLsbD_last hi hlast, hv]
    rfl

theorem decodeZigzag_encodeZigzag (v : BitVec w) : decodeZigzag (encodeZigzag v) = v := by
  unfold encodeZigzag decodeZigzag
  rw [BitVec.slt_zero_eq_msb]
  by_cases hneg : v.msb
  · rw [if_pos hneg, neg_mul_two_sub_one, not_shiftLeft_and_one, not_shiftLeft_shiftRight hneg,
      BitVec.neg_one_eq_allOnes, BitVec.xor_allOnes, BitVec.not_not]
  · rw [if_neg hneg, mul_two, shiftLeft_and_one, shiftLeft_shiftRight (Bool.eq_false_iff.mpr hneg),
      BitVec.neg_zero, BitVec.xor_zero]

theorem encodeZigzag_decodeZigzag (v : BitVec w) : encodeZigzag (decodeZigzag v) = v := by
  have hfin : Finite (BitVec w) :=
    Finite.of_injective BitVec.toFin fun _ _ h => BitVec.eq_of_toFin_eq h
  have hleft : Function.LeftInverse (@decodeZigzag w) encodeZigzag := decodeZigzag_encodeZigzag
  exact hleft.rightInverse_of_surjective (Finite.injective_iff_surjective.mp hleft.injective) v

/-- The code of an integer as a number. -/
theorem toNat_encodeZigzag (v : BitVec w) : ((encodeZigzag v).toNat : Int) =
    if v.toInt < 0 then -2 * v.toInt - 1 else 2 * v.toInt := by
  have hlt := v.isLt
  have hshift : (v <<< 1).toNat = v.toNat * 2 % 2 ^ w := by
    rw [BitVec.toNat_shiftLeft, Nat.shiftLeft_eq, Nat.pow_one]
  have hint := BitVec.toInt_eq_toNat_cond v
  unfold encodeZigzag
  rw [BitVec.slt_zero_eq_msb, BitVec.msb_eq_toInt, neg_mul_two_sub_one, mul_two]
  by_cases hneg : v.toInt < 0
  · have hhalf : ¬2 * v.toNat < 2 ^ w := by
      intro hlow
      rw [if_pos hlow] at hint
      omega
    rw [if_neg hhalf] at hint
    have hmod : v.toNat * 2 % 2 ^ w = v.toNat * 2 - 2 ^ w := by
      rw [Nat.mod_eq_sub_mod (by omega), Nat.mod_eq_of_lt (by omega)]
    rw [if_pos (decide_eq_true hneg), if_pos hneg, BitVec.toNat_not, hshift, hmod]
    omega
  · have hhalf : 2 * v.toNat < 2 ^ w := by
      by_contra hhigh
      rw [if_neg hhigh] at hint
      omega
    rw [if_pos hhalf] at hint
    rw [if_neg (by rwa [decide_eq_true_iff]), if_neg hneg, hshift, Nat.mod_eq_of_lt (by omega)]
    omega

end Varint
