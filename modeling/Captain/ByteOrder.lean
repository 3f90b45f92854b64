import Mathlib.Tactic.NormNum

/-!
# Integers in memory

`store order n v` is how a machine of the given byte order keeps the number `v` in `n` bytes, and
`load` reads it back. `swap` reverses the bytes of a number; it takes the representation of one
order to that of the other.
-/

inductive ByteOrder
  | little
  | big
  deriving DecidableEq, Repr

namespace ByteOrder

/-- The `n` lowest bytes of `v`, the lowest first. -/
def bytes : Nat → Nat → List UInt8
  | 0, _ => []
  | n + 1, v => .ofNat v :: bytes n (v / 256)

/-- The number with these bytes, the lowest first. -/
def number (l : List UInt8) : Nat := l.foldr (fun b v => 256 * v + b.toNat) 0

def store (order : ByteOrder) (n v : Nat) : List UInt8 :=
  match order with
  | little => bytes n v
  | big => (bytes n v).reverse

def load (order : ByteOrder) (l : List UInt8) : Nat :=
  match order with
  | little => number l
  | big => number l.reverse

/-- The number whose bytes are those of `v` in the reverse order. -/
def swap (n v : Nat) : Nat := number (bytes n v).reverse

theorem length_bytes (n v : Nat) : (bytes n v).length = n := by
  induction n generalizing v with
  | zero => rfl
  | succ n ih => exact congrArg (· + 1) (ih _)

theorem number_lt (l : List UInt8) : number l < 256 ^ l.length := by
  induction l with
  | nil => exact Nat.one_pos
  | cons b l ih =>
    have hb := b.toNat_lt
    show 256 * number l + b.toNat < _
    rw [List.length_cons, Nat.pow_succ]
    omega

theorem number_bytes {n v : Nat} (h : v < 256 ^ n) : number (bytes n v) = v := by
  induction n generalizing v with
  | zero => exact (Nat.lt_one_iff.mp h).symm
  | succ n ih =>
    have hdiv : v / 256 < 256 ^ n := by
      rw [Nat.pow_succ] at h
      omega
    have hb : (UInt8.ofNat v).toNat = v % 256 := UInt8.toNat_ofNat'
    show 256 * number (bytes n (v / 256)) + (UInt8.ofNat v).toNat = v
    rw [ih hdiv, hb]
    omega

theorem bytes_number (l : List UInt8) : bytes l.length (number l) = l := by
  induction l with
  | nil => rfl
  | cons b l ih =>
    have hb := b.toNat_lt
    have hlow : UInt8.ofNat (256 * number l + b.toNat) = b := by
      apply UInt8.toNat_inj.mp
      rw [UInt8.toNat_ofNat']
      omega
    have hhigh : (256 * number l + b.toNat) / 256 = number l := by omega
    show UInt8.ofNat (256 * number l + b.toNat) ::
      bytes l.length ((256 * number l + b.toNat) / 256) = _
    rw [hlow, hhigh, ih]

theorem length_store (order : ByteOrder) (n v : Nat) : (order.store n v).length = n := by
  cases order with
  | little => exact length_bytes n v
  | big => exact List.length_reverse.trans (length_bytes n v)

theorem load_lt (order : ByteOrder) (l : List UInt8) : order.load l < 256 ^ l.length := by
  cases order with
  | little => exact number_lt l
  | big => exact l.length_reverse ▸ number_lt l.reverse

theorem load_store (order : ByteOrder) {n v : Nat} (h : v < 256 ^ n) :
    order.load (order.store n v) = v := by
  cases order with
  | little => exact number_bytes h
  | big =>
    show number (bytes n v).reverse.reverse = v
    rw [List.reverse_reverse]
    exact number_bytes h

theorem swap_lt (n v : Nat) : swap n v < 256 ^ n := by
  have h := number_lt (bytes n v).reverse
  rwa [List.length_reverse, length_bytes] at h

theorem bytes_swap (n v : Nat) : bytes n (swap n v) = (bytes n v).reverse := by
  have h := bytes_number (bytes n v).reverse
  rwa [List.length_reverse, length_bytes] at h

/-- Storing the swapped number stores the number in the other order. -/
theorem store_swap {order other : ByteOrder} (h : order ≠ other) (n v : Nat) :
    order.store n (swap n v) = other.store n v := by
  cases order <;> cases other
  · exact absurd rfl h
  · exact bytes_swap n v
  · show (bytes n (swap n v)).reverse = bytes n v
    rw [bytes_swap, List.reverse_reverse]
  · exact absurd rfl h

/-- Swapping what was loaded in one order loads it in the other. -/
theorem swap_load {order other : ByteOrder} (h : order ≠ other) (l : List UInt8) :
    swap l.length (order.load l) = other.load l := by
  have hlittle : swap l.length (number l) = number l.reverse := by rw [swap, bytes_number]
  cases order <;> cases other
  · exact absurd rfl h
  · exact hlittle
  · show swap l.length (number l.reverse) = number l
    have hbytes := bytes_number l.reverse
    rw [List.length_reverse] at hbytes
    rw [swap, hbytes, List.reverse_reverse]
  · exact absurd rfl h

/-! ## Bits -/

theorem getElem?_bytes {n v k : Nat} (h : k < n) :
    (bytes n v)[k]? = some (.ofNat (v / 256 ^ k)) := by
  induction n generalizing v k with
  | zero => exact absurd h (Nat.not_lt_zero k)
  | succ n ih =>
    cases k with
    | zero => rw [Nat.pow_zero, Nat.div_one]; rfl
    | succ k =>
      show (bytes n (v / 256))[k]? = _
      rw [ih (Nat.lt_of_succ_lt_succ h), Nat.div_div_eq_div_mul, Nat.pow_succ, Nat.mul_comm]

theorem testBit_number (l : List UInt8) (i : Nat) :
    (number l).testBit i = (l[i / 8]?.getD 0).toNat.testBit (i % 8) := by
  induction l generalizing i with
  | nil => simp [number]
  | cons b l ih =>
    show (2 ^ 8 * number l + b.toNat).testBit i = _
    rw [Nat.testBit_two_pow_mul_add _ b.toNat_lt]
    split
    · rename_i hi
      have h0 : i / 8 = 0 := by omega
      have hmod : i % 8 = i := by omega
      rw [h0, hmod]
      rfl
    · rename_i hi
      obtain ⟨k, rfl⟩ : ∃ k, i = k + 8 := ⟨i - 8, by omega⟩
      rw [ih]
      have hk : (k + 8) / 8 = k / 8 + 1 := by omega
      simp [hk]

/-- Bit `i` of the swapped number is in the byte at the other end. -/
theorem testBit_swap {n v i : Nat} (h : i < 8 * n) :
    (swap n v).testBit i = v.testBit (8 * (n - 1 - i / 8) + i % 8) := by
  have hk : i / 8 < n := by omega
  have hlen : i / 8 < (bytes n v).length := by rwa [length_bytes]
  unfold swap
  rw [testBit_number, List.getElem?_reverse hlen, length_bytes,
    getElem?_bytes (by omega), Option.getD_some, UInt8.toNat_ofNat']
  have hpow : (256 : Nat) ^ (n - 1 - i / 8) = 2 ^ (8 * (n - 1 - i / 8)) := by rw [Nat.pow_mul]
  rw [Nat.testBit_mod_two_pow, hpow, Nat.testBit_div_two_pow,
    decide_eq_true (Nat.mod_lt i (by decide)), Bool.true_and, Nat.add_comm]
end ByteOrder
